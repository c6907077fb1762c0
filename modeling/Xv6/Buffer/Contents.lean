import Xv6.Buffer.Refinement

namespace Xv6
namespace Buffer
namespace Shared

open Foundation Function
open Log

/-!
# What a commit leaves of the blocks

A commit assigns to buffers as well.  Outside the log it gives every block the
contents that the block has already: `write_log` copies the blocks of the header
to the log, no process is in an operation until the commit is over, and
`install_trans` copies them back.  So a `bread` returns what a process in an
operation has last given to the block.
-/

variable {pid : Pid} {system next : System} {parts parts' rest : List Part} {stage stage' : Stage}
  {part : Part} {tail entry : Nat} {lh : List Nat}

/-! ## The rounds of a commit -/

/-- The parts that are left are for entries of the header, each block is copied
to the log before the first one is installed, and the header is emptied last. -/
def Follows (lh : List Nat) : List Part → Prop
  | [] => True
  | .writeLog tail entry :: rest => lh[tail]? = some entry ∧ Follows lh rest
  | .writeHead :: rest => Follows lh rest
  | .install tail entry :: rest =>
    lh[tail]? = some entry ∧ (∀ tail entry, Part.writeLog tail entry ∉ rest) ∧ Follows lh rest
  | .clear :: rest => rest = [.writeHead]

namespace Follows

theorem later (follows : Follows lh (part :: rest)) (notClear : part ≠ .clear) :
    Follows lh rest := by
  cases part with
  | writeLog => exact follows.2
  | writeHead => exact follows
  | install => exact follows.2.2
  | clear => exact absurd rfl notClear

theorem isEntry (follows : Follows lh parts)
    (member : Part.writeLog tail entry ∈ parts ∨ Part.install tail entry ∈ parts) :
    lh[tail]? = some entry := by
  induction parts with
  | nil => simp at member
  | cons part rest ih =>
    rw [List.mem_cons, List.mem_cons] at member
    rcases member with (rfl | later) | (rfl | later)
    · exact follows.1
    · cases part with
      | clear =>
        rw [show rest = _ from follows] at later
        simp at later
      | _ => exact ih (follows.later nofun) (Or.inl later)
    · exact follows.1
    · cases part with
      | clear =>
        rw [show rest = _ from follows] at later
        simp at later
      | _ => exact ih (follows.later nofun) (Or.inr later)

variable {rounds : List Part} (follows : Follows lh rest)
include follows

theorem writeLogs (each : ∀ part ∈ rounds,
    ∃ tail entry, part = .writeLog tail entry ∧ lh[tail]? = some entry) :
    Follows lh (rounds ++ rest) := by
  induction rounds with
  | nil => exact follows
  | cons part others ih =>
    rcases each part List.mem_cons_self with ⟨tail, entry, rfl, isEntry⟩
    exact ⟨isEntry, ih fun part member => each part (List.mem_cons_of_mem _ member)⟩

theorem installs (nothing : ∀ tail entry, Part.writeLog tail entry ∉ rest)
    (each : ∀ part ∈ rounds, ∃ tail entry, part = .install tail entry ∧ lh[tail]? = some entry) :
    Follows lh (rounds ++ rest) := by
  induction rounds with
  | nil => exact follows
  | cons part others ih =>
    rcases each part List.mem_cons_self with ⟨tail, entry, rfl, isEntry⟩
    refine ⟨isEntry, ?_, ih fun part member => each part (List.mem_cons_of_mem _ member)⟩
    intro position block member
    rcases List.mem_append.mp member with inOthers | inRest
    · rcases each _ (List.mem_cons_of_mem _ inOthers) with ⟨_, _, impossible, _⟩
      cases impossible
    · exact nothing position block inRest

end Follows

theorem follows_commitParts (lh : List Nat) : Follows lh (commitParts lh) := by
  unfold commitParts
  split
  · rw [List.append_assoc, List.append_assoc]
    refine Follows.writeLogs ?_ ?_
    · have cleared : Follows lh [.clear, .writeHead] := rfl
      refine cleared.installs (by simp) ?_
      intro part member
      rcases List.mem_mapIdx.mp member with ⟨tail, inside, rfl⟩
      exact ⟨tail, lh[tail], rfl, List.getElem?_eq_getElem inside⟩
    · intro part member
      rcases List.mem_mapIdx.mp member with ⟨tail, inside, rfl⟩
      exact ⟨tail, lh[tail], rfl, List.getElem?_eq_getElem inside⟩
  · trivial

theorem writeLog_mem_commitParts (member : Part.install tail entry ∈ commitParts lh) :
    Part.writeLog tail entry ∈ commitParts lh := by
  rcases List.getElem?_eq_some_iff.mp ((follows_commitParts lh).isEntry (Or.inr member)) with
    ⟨inside, isEntry⟩
  have isRound : Part.writeLog tail entry ∈ lh.mapIdx Part.writeLog :=
    List.mem_mapIdx.mpr ⟨tail, inside, by rw [isEntry]⟩
  rw [commitParts, if_pos (Nat.zero_lt_of_lt inside)]
  simp only [List.mem_append]
  exact Or.inl (Or.inl (Or.inl isRound))

/-! ## The points of a round -/

/-- The block of the log that a part works on. -/
def Part.slot (part : Part) (log : LogState) : Nat :=
  match part with
  | .writeLog tail _ | .install tail _ => log.start + tail + 1
  | .writeHead | .clear => log.start

/-- The home block of a round. -/
def Part.home : Part → Option Nat
  | .writeLog _ entry | .install _ entry => some entry
  | .writeHead | .clear => none

/-- Which blocks the buffers of a part are for, and what a round of `write_log`
has left in the log. -/
def Stage.Opens (system : System) (part : Part) : Stage → Prop
  | .start | .filled _ => True
  | .wantFirst first | .lockedFirst first | .haveFirst first =>
    (system.machine.bufs first).blockno = part.slot system.machine.log
  | .wantSecond first second | .lockedSecond first second | .haveBoth first second =>
    (system.machine.bufs first).blockno = part.slot system.machine.log ∧
      part.home = some (system.machine.bufs second).blockno
  | .changed _ _ | .written _ _ | .unpinned _ _ | .last _ =>
    ∀ tail entry, part = .writeLog tail entry →
      system.stored (system.machine.log.start + tail + 1) = system.latest entry

/-- Nothing is assigned. -/
def Unassigned (system next : System) : Prop :=
  next.stored = system.stored ∧ next.latest = system.latest

theorem unassigned_of_attempt {α : Type} {program : Kernel α} {continue' : α → Machine → System}
    (ran : system.attempt program continue' = .next next)
    (same : ∀ value machine, Unassigned system (continue' value machine) := by
      exact fun _ _ => ⟨rfl, rfl⟩) : Unassigned system next := by
  rcases System.attempt_eq_next ran with ⟨value, machine, _, rfl⟩
  exact same value machine

section

variable {actor : Pid} {target : Index} {mode : Mode} {pins : List Nat}
  (moved : Moved actor target mode pins system next) (unassigned : Unassigned system next)
include moved unassigned

/-- Buffers that are counted stay with their blocks. -/
theorem Moved.opens (coherent : Coherent system) (fits : stage.Fits system pid part)
    (opens : stage.Opens system part) : stage.Opens next part := by
  have first : ∀ index, (system.machine.bufs index).refcnt ≠ 0 →
      (system.machine.bufs index).blockno = part.slot system.machine.log →
      (next.machine.bufs index).blockno = part.slot next.machine.log := by
    intro index counted isSlot
    rw [moved.key index counted, moved.log]
    exact isSlot
  have second : ∀ index, (system.machine.bufs index).refcnt ≠ 0 →
      part.home = some (system.machine.bufs index).blockno →
      part.home = some (next.machine.bufs index).blockno := by
    intro index counted isHome
    rw [moved.key index counted]
    exact isHome
  have held : ∀ index, system.Holds pid index → (system.machine.bufs index).refcnt ≠ 0 :=
    fun index => coherent.exact.counted_of_held
  have logged : (∀ tail entry, part = .writeLog tail entry →
      system.stored (system.machine.log.start + tail + 1) = system.latest entry) →
      ∀ tail entry, part = .writeLog tail entry →
        next.stored (next.machine.log.start + tail + 1) = next.latest entry := by
    rw [moved.log, unassigned.1, unassigned.2]
    exact id
  cases stage with
  | start => trivial
  | filled => trivial
  | wantFirst index => exact first index (coherent.exact.counted_of_waiting fits.1) opens
  | lockedFirst index => exact first index (held index (coherent.reader pid index fits.1.2)) opens
  | haveFirst index => exact first index (held index fits.2.1) opens
  | wantSecond index other =>
    rcases fits with ⟨waits, has, _⟩
    exact ⟨first index (held index has.1) opens.1,
      second other (coherent.exact.counted_of_waiting waits.1) opens.2⟩
  | lockedSecond index other =>
    rcases fits with ⟨reads, has, _⟩
    exact ⟨first index (held index has.1) opens.1,
      second other (held other (coherent.reader pid other reads.2)) opens.2⟩
  | haveBoth index other =>
    rcases fits with ⟨_, has, hasOther, _⟩
    exact ⟨first index (held index has.1) opens.1, second other (held other hasOther.1) opens.2⟩
  | changed => exact logged opens
  | written => exact logged opens
  | unpinned => exact logged opens
  | last => exact logged opens

end

/-! ## The invariant -/

/-- What a commit has done and has still to do. -/
structure Copies (system : System) (parts : List Part) (stage : Stage) : Prop where
  room : parts ≠ [] → system.machine.log.lh.length < system.machine.log.size
  follows : Follows system.machine.log.lh parts
  copied : ∀ tail entry, Part.install tail entry ∈ parts → Part.writeLog tail entry ∉ parts →
    system.stored (system.machine.log.start + tail + 1) = system.latest entry
  opens : stage.Opens system (parts.headD .clear)

/-- Outside the log the commits have changed nothing. -/
structure Faithful (system : System) : Prop where
  current : ∀ block, ¬ InLog system.machine.log block → system.stored block = system.latest block
  apart : ∀ block ∈ system.machine.log.lh, ¬ InLog system.machine.log block
  room : system.machine.log.lh ≠ [] → system.machine.log.lh.length < system.machine.log.size
  copies : ∀ pid parts stage, system.mode pid = .committing parts stage →
    Copies system parts stage

namespace Copies

variable (copies : Copies system parts stage)
include copies

theorem kept {actor : Pid} {target : Index} {mode : Mode} {pins : List Nat}
    (moved : Moved actor target mode pins system next) (unassigned : Unassigned system next)
    (opens : stage'.Opens next (parts.headD .clear)) : Copies next parts stage' := by
  refine ⟨?_, ?_, ?_, opens⟩
  · rw [moved.log]
    exact copies.room
  · rw [moved.log]
    exact copies.follows
  · rw [moved.log, unassigned.1, unassigned.2]
    exact copies.copied

theorem inLog (nonempty : parts ≠ []) (isEntry : system.machine.log.lh[tail]? = some entry) :
    InLog system.machine.log (system.machine.log.start + tail + 1) := by
  rcases List.getElem?_eq_some_iff.mp isEntry with ⟨inside, _⟩
  have room := copies.room nonempty
  constructor <;> omega

end Copies

namespace Faithful

variable (faithful : Faithful system) (sound : Sound system)
include faithful sound

theorem client {target : Index} {pins : List Nat}
    (moved : Moved pid target (system.mode pid) pins system next)
    (unassigned : Unassigned system next) : Faithful next := by
  have modes : next.mode = system.mode := moved.mode.trans (update_eq_self pid system.mode)
  refine ⟨?_, ?_, ?_, ?_⟩
  · rw [moved.log, unassigned.1, unassigned.2]
    exact faithful.current
  · rw [moved.log]
    exact faithful.apart
  · rw [moved.log]
    exact faithful.room
  · intro other parts stage committing
    rw [modes] at committing
    have copies := faithful.copies other parts stage committing
    exact copies.kept moved unassigned (moved.opens unassigned sound.coherent
      (sound.fits other parts stage committing) copies.opens)

section

variable {target : Index} {pins : List Nat}
  (committing : system.mode pid = .committing parts stage)
include committing

theorem commits (moved : Moved pid target (.committing parts' stage') pins system next)
    (current : ∀ block, ¬ InLog system.machine.log block → next.stored block = next.latest block)
    (copies : Copies next parts' stage') : Faithful next := by
  refine ⟨?_, ?_, ?_, ?_⟩
  · rw [moved.log]
    exact current
  · rw [moved.log]
    exact faithful.apart
  · rw [moved.log]
    exact faithful.room
  · intro other otherParts otherStage alsoCommitting
    rw [moved.mode] at alsoCommitting
    rcases update_eq_cases alsoCommitting with ⟨_, same⟩ | ⟨different, before⟩
    · cases same
      exact copies
    · exact absurd (sound.alone committing before) different

variable (moved : Moved pid target (.committing parts stage') pins system next)
include moved

theorem goesOn (unassigned : Unassigned system next)
    (opens : stage'.Opens next (parts.headD .clear)) : Faithful next := by
  refine faithful.commits sound committing moved ?_
    ((faithful.copies pid parts stage committing).kept moved unassigned opens)
  rw [unassigned.1, unassigned.2]
  exact faithful.current

theorem passes (unassigned : Unassigned system next)
    (same : stage'.Opens next (parts.headD .clear) = stage.Opens next (parts.headD .clear)) :
    Faithful next := by
  apply faithful.goesOn sound committing moved unassigned
  rw [same]
  exact moved.opens unassigned sound.coherent (sound.fits pid parts stage committing)
    (faithful.copies pid parts stage committing).opens

/-- A step that assigns to a block. -/
theorem stores {block : Nat} {data : Block}
    (isStored : next.stored = update system.stored block data ∧ next.latest = system.latest)
    (agrees : ¬ InLog system.machine.log block → data = system.latest block)
    (elsewhere : ∀ tail entry, Part.install tail entry ∈ parts → Part.writeLog tail entry ∉ parts →
      system.machine.log.start + tail + 1 ≠ block)
    (opens : stage'.Opens next (parts.headD .clear)) : Faithful next := by
  have copies := faithful.copies pid parts stage committing
  refine faithful.commits sound committing moved ?_ ⟨?_, ?_, ?_, opens⟩
  · intro other outside
    rw [isStored.1, isStored.2]
    by_cases same : other = block
    · rw [same, update_self]
      rw [same] at outside
      exact agrees outside
    · rw [update_of_ne same]
      exact faithful.current other outside
  · rw [moved.log]
    exact copies.room
  · rw [moved.log]
    exact copies.follows
  · intro tail entry isInstall missing
    rw [moved.log, isStored.1, isStored.2, update_of_ne (elsewhere tail entry isInstall missing)]
    exact copies.copied tail entry isInstall missing

end

/-! ## The steps of a commit -/

variable {first second buf : Index} {blockno : Nat} {data : Block}

theorem wantFirst (committing : system.mode pid = .committing parts .start)
    (isSlot : blockno = (parts.headD .clear).slot system.machine.log)
    (ran : system.bget pid blockno (fun buf => .committing parts (.wantFirst buf)) = .next next) :
    Faithful next := by
  have quiet := sound.fits pid parts .start committing
  rcases sound.coherent.bget quiet.1 quiet.2 ran with ⟨buf, moved, _, _, isBlock, _⟩
  apply faithful.goesOn sound committing moved (unassigned_of_attempt ran)
  show (next.machine.bufs buf).blockno = _
  rw [moved.log, isBlock, isSlot]

theorem wantSecond (committing : system.mode pid = .committing parts (.haveFirst first))
    (isHome : (parts.headD .clear).home = some blockno)
    (ran : system.bget pid blockno (fun buf => .committing parts (.wantSecond first buf)) =
      .next next) : Faithful next := by
  have fits := sound.fits pid parts (.haveFirst first) committing
  have unassigned : Unassigned system next := unassigned_of_attempt ran
  rcases sound.coherent.bget fits.1.1 fits.1.2 ran with ⟨buf, moved, _, _, isBlock, _⟩
  refine faithful.goesOn sound committing moved unassigned ⟨?_, ?_⟩
  · exact moved.opens unassigned sound.coherent fits
      (faithful.copies pid parts (.haveFirst first) committing).opens
  · rw [isBlock]
    exact isHome

omit faithful sound in
theorem assign_stored {mode : Mode} (ran : system.assign pid buf data mode = .next next) :
    next.stored = update system.stored (system.machine.bufs buf).blockno data ∧
      next.latest = system.latest := by
  rcases System.attempt_eq_next ran with ⟨_, _, _, rfl⟩
  exact ⟨rfl, rfl⟩

omit faithful in
theorem data_of_has (quiet : Quiet system pid) (has : Has system pid buf) :
    (system.machine.bufs buf).data = system.stored (system.machine.bufs buf).blockno :=
  sound.coherent.fresh buf (sound.coherent.onDevice has.1)
    (sound.coherent.valid_of_held has.1 quiet.2)

theorem filled (committing : system.mode pid = .committing (.writeHead :: rest) (.haveFirst first))
    (ran : system.assign pid first data (.committing (.writeHead :: rest) (.filled first)) =
      .next next) : Faithful next := by
  rcases sound.fits pid _ _ committing with ⟨quiet, has⟩
  have copies := faithful.copies pid _ _ committing
  have isStart : (system.machine.bufs first).blockno = system.machine.log.start := copies.opens
  have room := copies.room (List.cons_ne_nil _ _)
  refine faithful.stores sound committing (sound.coherent.assign has.1 quiet.2 ran).1
    (assign_stored ran) ?_ ?_ trivial
  · intro outside
    rw [isStart] at outside
    exact absurd ⟨Nat.le_refl _, by omega⟩ outside
  · intro tail entry _ _
    omega

/-- `write_log` copies a block to the log. -/
theorem logs
    (committing : system.mode pid = .committing (.writeLog tail entry :: rest)
      (.haveBoth first second))
    (ran : system.assign pid first (system.machine.bufs second).data
      (.committing (.writeLog tail entry :: rest) (.changed first second)) = .next next) :
    Faithful next := by
  rcases sound.fits pid _ _ committing with ⟨quiet, hasFirst, hasSecond, _⟩
  have copies := faithful.copies pid _ _ committing
  have isSlot : (system.machine.bufs first).blockno = system.machine.log.start + tail + 1 :=
    copies.opens.1
  have isHome : entry = (system.machine.bufs second).blockno := Option.some.inj copies.opens.2
  have isEntry : system.machine.log.lh[tail]? = some entry := copies.follows.1
  have moved := (sound.coherent.assign hasFirst.1 quiet.2 ran).1
  have isStored := assign_stored ran
  rw [isSlot] at isStored
  refine faithful.stores sound committing moved isStored ?_ ?_ ?_
  · exact fun outside => absurd (copies.inLog (List.cons_ne_nil _ _) isEntry) outside
  · intro position block isInstall missing same
    obtain rfl : position = tail := by omega
    have isBlock := Follows.isEntry copies.follows (Or.inr isInstall)
    rw [isEntry] at isBlock
    cases isBlock
    exact missing List.mem_cons_self
  · intro position block isRound
    cases isRound
    rw [moved.log, isStored.1, isStored.2, update_self, data_of_has sound quiet hasSecond, ← isHome]
    exact faithful.current entry (faithful.apart entry (List.mem_of_getElem? isEntry))

theorem installs
    (committing : system.mode pid = .committing (.install tail entry :: rest)
      (.haveBoth first second))
    (ran : system.assign pid second (system.machine.bufs first).data
      (.committing (.install tail entry :: rest) (.changed first second)) = .next next) :
    Faithful next := by
  rcases sound.fits pid _ _ committing with ⟨quiet, hasFirst, hasSecond, _⟩
  have copies := faithful.copies pid _ _ committing
  have isSlot : (system.machine.bufs first).blockno = system.machine.log.start + tail + 1 :=
    copies.opens.1
  have isHome : entry = (system.machine.bufs second).blockno := Option.some.inj copies.opens.2
  have isEntry : system.machine.log.lh[tail]? = some entry := copies.follows.1
  have outside := faithful.apart entry (List.mem_of_getElem? isEntry)
  have isStored := assign_stored ran
  rw [← isHome] at isStored
  refine faithful.stores sound committing (sound.coherent.assign hasSecond.1 quiet.2 ran).1 isStored
    ?_ ?_ nofun
  · intro _
    rw [data_of_has sound quiet hasFirst, isSlot]
    refine copies.copied tail entry List.mem_cons_self ?_
    rw [List.mem_cons, not_or]
    exact ⟨nofun, copies.follows.2.1 tail entry⟩
  · intro position block isInstall _ same
    have isBlock := Follows.isEntry copies.follows (Or.inr isInstall)
    apply outside
    rw [← same]
    exact copies.inLog (List.cons_ne_nil _ _) isBlock

/-- A part releases its last buffer. -/
theorem finished (committing : system.mode pid = .committing (part :: rest) (.last buf))
    (ran : system.brelse pid buf (.committing rest .start) = .next next) : Faithful next := by
  rcases sound.fits pid _ _ committing with ⟨quiet, has, notClear⟩
  have copies := faithful.copies pid _ _ committing
  have moved := (sound.coherent.brelse has.1 quiet.2 has.2 ran).1
  have unassigned : Unassigned system next := unassigned_of_attempt ran
  refine faithful.commits sound committing moved ?_ ⟨?_, ?_, ?_, trivial⟩
  · rw [unassigned.1, unassigned.2]
    exact faithful.current
  · rw [moved.log]
    exact fun _ => copies.room (List.cons_ne_nil _ _)
  · rw [moved.log]
    exact copies.follows.later notClear
  · rw [moved.log, unassigned.1, unassigned.2]
    intro tail entry isInstall missing
    by_cases isRound : part = .writeLog tail entry
    · exact copies.opens tail entry isRound
    · refine copies.copied tail entry (List.mem_cons_of_mem _ isInstall) ?_
      rw [List.mem_cons, not_or]
      exact ⟨fun same => isRound same.symm, missing⟩

/-- The assignment `log.lh.n = 0`. -/
theorem clear (committing : system.mode pid = .committing (.clear :: rest) .start) :
    Faithful (system.setLog pid { system.machine.log with lh := [] } (.committing rest .start)) := by
  have copies := faithful.copies pid _ _ committing
  have room := copies.room (List.cons_ne_nil _ _)
  refine ⟨faithful.current, nofun, fun nonempty => absurd rfl nonempty, ?_⟩
  intro other parts stage alsoCommitting
  rcases update_eq_cases alsoCommitting with ⟨_, same⟩ | ⟨different, before⟩
  · cases same
    obtain rfl : rest = [.writeHead] := copies.follows
    exact ⟨fun _ => Nat.zero_lt_of_lt room, trivial, by simp, trivial⟩
  · exact absurd (sound.alone committing before) different

omit sound in
theorem relog (outstanding : Int) (committing : Bool) (mode : Mode)
    (copies : ∀ other parts stage, update system.mode pid mode other = .committing parts stage →
      Copies (system.setLog pid { system.machine.log with
        outstanding := outstanding, committing := committing } mode) parts stage) :
    Faithful (system.setLog pid { system.machine.log with
      outstanding := outstanding, committing := committing } mode) :=
  ⟨faithful.current, faithful.apart, faithful.room, copies⟩

/-- Every step of a commit keeps the invariant. -/
theorem advance (committing : system.mode pid = .committing parts stage)
    (ran : system.advance pid parts stage = .next next) : Faithful next := by
  have fits := sound.fits pid parts stage committing
  have coherent := sound.coherent
  unfold System.advance at ran
  dsimp only at ran
  split at ran
  · cases ran
    refine faithful.relog _ false .outside fun other parts stage alsoCommitting => ?_
    rcases update_eq_cases alsoCommitting with ⟨_, impossible⟩ | ⟨different, before⟩
    · cases impossible
    · exact absurd (sound.alone committing before) different
  · cases ran
    exact faithful.clear sound committing
  · exact faithful.wantFirst sound committing rfl ran
  · exact faithful.wantFirst sound committing rfl ran
  · exact faithful.wantFirst sound committing rfl ran
  · exact faithful.passes sound committing (coherent.lock fits.1 fits.2 ran).1
      (unassigned_of_attempt ran) rfl
  · exact faithful.passes sound committing (coherent.read fits.1.2 fits.1.1 ran).1
      (unassigned_of_attempt ran) rfl
  · exact faithful.filled sound committing ran
  · rcases fits with ⟨quiet, held, isHead⟩
    apply faithful.goesOn sound committing (coherent.bwrite held quiet.2 ran).1
      (unassigned_of_attempt ran)
    rw [isHead]
    exact nofun
  · exact faithful.wantSecond sound committing rfl ran
  · exact faithful.wantSecond sound committing rfl ran
  · exact faithful.passes sound committing (coherent.lock fits.1.1 fits.1.2 ran).1
      (unassigned_of_attempt ran) rfl
  · exact faithful.passes sound committing (coherent.read fits.1.2 fits.1.1 ran).1
      (unassigned_of_attempt ran) rfl
  · exact faithful.logs sound committing ran
  · rcases fits with ⟨quiet, held, _⟩
    exact faithful.passes sound committing (coherent.bwrite held quiet.2 ran).1
      (unassigned_of_attempt ran) rfl
  · rcases fits with ⟨quiet, _, hasSecond, _⟩
    exact faithful.passes sound committing (coherent.brelse hasSecond.1 quiet.2 hasSecond.2 ran).1
      (unassigned_of_attempt ran) rfl
  · exact faithful.installs sound committing ran
  · rcases fits with ⟨quiet, held, _⟩
    exact faithful.passes sound committing (coherent.bwrite held quiet.2 ran).1
      (unassigned_of_attempt ran) rfl
  · exact faithful.passes sound committing (sound.unpins committing ran).1
      (unassigned_of_attempt ran) rfl
  · rcases fits with ⟨quiet, hasFirst, _⟩
    exact faithful.passes sound committing (coherent.brelse hasFirst.1 quiet.2 hasFirst.2 ran).1
      (unassigned_of_attempt ran) rfl
  · exact faithful.finished sound committing ran
  · cases ran

/-! ## The other processes -/

section

variable (inside : system.mode pid = .inside)
include inside

omit faithful in
theorem not_committing (other : Pid) : system.mode other ≠ .committing parts stage :=
  Mode.ne_committing (sound.clients_of_idle (sound.idle_of_inside inside) other)

/-- A process gives a block new contents. -/
theorem assign (quiet : Quiet system pid) (held : system.Holds pid buf)
    (ran : { system with
      latest := update system.latest (system.machine.bufs buf).blockno data
      }.assign pid buf data .inside = .next next) : Faithful next := by
  have given := sound.given (update system.latest (system.machine.bufs buf).blockno data)
  have moved := (given.coherent.assign held quiet.2 ran).1
  have isStored := assign_stored ran
  refine ⟨?_, ?_, ?_, ?_⟩
  · rw [moved.log]
    intro block outside
    rw [isStored.1, isStored.2]
    by_cases same : block = (system.machine.bufs buf).blockno
    · show _ = update system.latest _ data block
      rw [same, update_self, update_self]
    · rw [update_of_ne same]
      exact (faithful.current block outside).trans (update_of_ne same _ _).symm
  · rw [moved.log]
    exact faithful.apart
  · rw [moved.log]
    exact faithful.room
  · intro other parts stage committing
    rw [moved.mode] at committing
    rcases update_eq_cases committing with ⟨_, impossible⟩ | ⟨_, before⟩
    · cases impossible
    · exact absurd before (not_committing sound inside other)

/-- `log_write` makes room for a block outside the log. -/
theorem logWrite (leaves : ¬ InLog system.machine.log (system.machine.bufs buf).blockno)
    (ran : system.attempt (Buffer.logWrite buf) (fun _ machine =>
      { system with machine := machine, dirty := update system.dirty buf false }) = .next next) :
    Faithful next := by
  rcases System.attempt_eq_next ran with ⟨_, machine, logged, rfl⟩
  rcases Coherent.logWrite_run logged with ⟨checked, isMachine⟩
  have isLog : machine.log = logWriteAppend system.machine.log (system.machine.bufs buf).blockno := by
    rw [isMachine]
  have sameBlocks : ∀ block, InLog machine.log block ↔ InLog system.machine.log block := by
    intro block
    rw [isLog, InLog, logWriteAppend_start, logWriteAppend_size]
    rfl
  have room := (logWriteCheck_eq_none.mp checked).2.1
  refine ⟨?_, ?_, ?_, ?_⟩
  · intro block outside
    exact faithful.current block fun inLog => outside ((sameBlocks block).mpr inLog)
  · intro block member
    rw [sameBlocks]
    rw [isLog, mem_logWriteAppend] at member
    rcases member with rfl | before
    · exact leaves
    · exact faithful.apart block before
  · intro _
    show machine.log.lh.length < machine.log.size
    rw [isLog, logWriteAppend_size, logWriteAppend]
    split
    · omega
    · rw [List.length_append, List.length_singleton]
      omega
  · intro other parts stage committing
    exact absurd committing (not_committing sound inside other)

theorem endOp {log : LogState} {doCommit : Bool}
    (ended : Log.endOp system.machine.log = .ok (log, doCommit)) :
    Faithful (system.setLog pid log
      (if doCommit then .committing (commitParts log.lh) .start else .outside)) := by
  rw [endOp_of_idle (sound.idle_of_inside inside)] at ended
  split at ended
  · cases ended
    refine faithful.relog _ _ _ fun other parts stage committing => ?_
    rcases update_eq_cases committing with ⟨_, same⟩ | ⟨_, before⟩
    · cases same
      refine ⟨fun nonempty => faithful.room ?_, follows_commitParts _, ?_, trivial⟩
      · intro nothing
        rw [nothing] at nonempty
        exact nonempty rfl
      · intro tail entry isInstall missing
        exact absurd (writeLog_mem_commitParts isInstall) missing
    · exact absurd before (not_committing sound inside other)
  · cases ended
    refine faithful.relog _ _ _ fun other parts stage committing => ?_
    rcases update_eq_cases committing with ⟨_, impossible⟩ | ⟨_, before⟩
    · cases impossible
    · exact absurd before (not_committing sound inside other)

end

end Faithful

/-- A process does not log a block of the log. -/
def Action.LeavesLog (system : System) : Action → Prop
  | .logWrite _ index => ¬ InLog system.machine.log (system.machine.bufs index).blockno
  | _ => True

instance (system : System) (action : Action) : Decidable (action.LeavesLog system) := by
  cases action <;> unfold Action.LeavesLog <;> infer_instance

theorem Faithful.stepped {action : Action} (faithful : Faithful system) (sound : Sound system)
    (leaves : action.LeavesLog system) (ran : step system action = .next next) :
    Faithful next := by
  have coherent := sound.coherent
  cases action with
  | bget pid blockno =>
    rcases guard_eq_next.mp ran with ⟨ready, ran⟩
    rcases coherent.bget ready.1 ready.2.1 ran with ⟨index, moved, _⟩
    exact faithful.client sound moved (unassigned_of_attempt ran)
  | lock pid =>
    simp only [step] at ran
    split at ran
    · rename_i index waits
      rcases guard_eq_next.mp ran with ⟨_, ran⟩
      exact faithful.client sound (coherent.lock waits (coherent.idle_of_waiting waits) ran).1
        (unassigned_of_attempt ran)
    · cases ran
  | read pid =>
    simp only [step] at ran
    split at ran
    · rename_i index reads
      rcases guard_eq_next.mp ran with ⟨_, ran⟩
      exact faithful.client sound (coherent.read reads (coherent.awake_of_reading reads) ran).1
        (unassigned_of_attempt ran)
    · cases ran
  | assign pid index data =>
    rcases guard_eq_next.mp ran with ⟨⟨ready, held, inside⟩, ran⟩
    exact faithful.assign sound inside ⟨ready.1, ready.2.1⟩ held ran
  | bwrite pid index =>
    rcases guard_eq_next.mp ran with ⟨ready, ran⟩
    exact faithful.client sound (coherent.bwrite ready.2 ready.1.2.1 ran).1
      (unassigned_of_attempt ran)
  | brelse pid index =>
    rcases guard_eq_next.mp ran with ⟨⟨ready, held, tidy⟩, ran⟩
    exact faithful.client sound (coherent.brelse held ready.2.1 tidy ran).1
      (unassigned_of_attempt ran)
  | beginOp pid =>
    rcases guard_eq_next.mp ran with ⟨_, ran⟩
    split at ran
    · rename_i log begun
      cases ran
      rcases beginOp_eq_some.mp begun with ⟨idle, _, rfl⟩
      refine faithful.relog _ _ .inside fun other parts stage committing => ?_
      rcases update_eq_cases committing with ⟨_, impossible⟩ | ⟨_, before⟩
      · cases impossible
      · exact absurd before (Mode.ne_committing (sound.clients_of_idle idle other))
    · cases ran
  | logWrite pid index =>
    rcases guard_eq_next.mp ran with ⟨⟨_, _, inside⟩, ran⟩
    exact faithful.logWrite sound inside leaves ran
  | endOp pid =>
    rcases guard_eq_next.mp ran with ⟨⟨_, inside, _⟩, ran⟩
    split at ran
    · cases ran
    · rename_i log ended
      cases ran
      exact faithful.endOp sound inside ended
    · rename_i log ended
      cases ran
      exact faithful.endOp sound inside ended
  | commit pid =>
    simp only [step] at ran
    split at ran
    · rename_i parts stage committing
      exact faithful.advance sound committing ran
    · cases ran

/-! ## The cache refines the disk -/

/-- What the invariants say about the cache. -/
theorem Faithful.refines (faithful : Faithful system) (sound : Sound system) : Refines system where
  returns := by
    intro pid next ran
    have leaves : Action.LeavesLog system (.read pid) := trivial
    have stillFaithful : Faithful next := faithful.stepped sound leaves ran
    simp only [step] at ran
    split at ran
    · rename_i index reads
      rcases guard_eq_next.mp ran with ⟨_, ran⟩
      have coherent := sound.coherent
      rcases coherent.read reads (coherent.awake_of_reading reads) ran with
        ⟨moved, _, _, _, held, isValid, block⟩
      have asked := block.trans (coherent.asked pid index (Or.inr reads))
      have onDevice := moved.coherent.onDevice held
      refine ⟨index, reads, held, ⟨onDevice, asked⟩, isValid, fun outside => ?_⟩
      rw [moved.coherent.fresh index onDevice isValid, asked]
      rw [← moved.log] at outside
      exact stillFaithful.current _ outside
    · cases ran
  holds := by
    intro pid index held finished
    have isValid := (sound.coherent.loaded pid index held).resolve_right finished
    refine ⟨isValid, fun outside => ?_⟩
    rw [sound.coherent.fresh index (sound.coherent.onDevice held) isValid]
    exact faithful.current _ outside
  unique := sound.coherent.exact.wellformed.unique
  ring := sound.coherent.exact.wellformed.ring

theorem faithful_boot {machine : Machine} (empty : machine.log.lh = []) :
    Faithful (System.boot machine) := by
  have nothing : (System.boot machine).machine.log.lh = [] := empty
  refine ⟨fun _ _ => rfl, ?_, fun nonempty => absurd nothing nonempty, ?_⟩
  · rw [nothing]
    nofun
  · intro pid parts stage committing
    cases committing

/-- In every state that the processes reach from a boot with an empty log,
without logging a block of the log, a `bread` of a block outside the log returns
what a process has last given to the block, whatever the commits have done to it
in between; no block is cached twice, and the list of buffers is one ring through
all of them. -/
theorem cache_refines_disk (disk : Nat → Block) (sb : Superblock) (machine : Machine)
    (schedule : List Action) (final : System) (empty : headerCount (disk sb.logstart) = 0)
    (booted : (recoverFromLog 0).run (Machine.boot disk (initlog ROOTDEV sb)) = .ok ⟨⟩ machine)
    (leaves : Meets step (fun system action => action.LeavesLog system) (System.boot machine) schedule)
    (reached : exec step (System.boot machine) schedule = .next final) : Refines final := by
  have device : (initlog ROOTDEV sb).dev ≠ 0 := Nat.one_ne_zero
  have nothing := decodeHeader_of_count_zero empty
  have consistent : Wp (recoverFromLog 0) (Machine.boot disk (initlog ROOTDEV sb)) _ _ :=
    recoverFromLog_consistent device nothing
  have agrees : Wp (recoverFromLog 0) (Machine.boot disk (initlog ROOTDEV sb)) _ _ :=
    recoverFromLog_agrees device nothing
  rw [wp_of_run booted] at consistent agrees
  have isEmpty : machine.log.lh = [] := by
    rw [agrees.2]
  have initially : Sound (System.boot machine) ∧ Faithful (System.boot machine) :=
    ⟨sound_boot consistent.1 consistent.2 agrees.1 agrees.2, faithful_boot isEmpty⟩
  have both : Sound final ∧ Faithful final := by
    refine exec_invariant (fun system => Sound system ∧ Faithful system) ?_ initially leaves reached
    intro system action next both leaves ran
    exact ⟨Sound.stepped system action next both.1 ran, both.2.stepped both.1 leaves ran⟩
  exact both.2.refines both.1

/-- One process writes a block; another one reads it twice, in the middle of
the commit and after it. -/
def writeThenRead : List Action :=
  [.beginOp 0, .bget 0 100, .lock 0, .read 0, .assign 0 1 (fun _ => 7), .logWrite 0 1, .brelse 0 1,
    .endOp 0] ++ List.replicate 20 (.commit 0) ++
    [.bget 1 100, .lock 1, .read 1, .brelse 1 1] ++ List.replicate 15 (.commit 0) ++
    [.bget 1 100, .lock 1, .read 1]

/-- What the second process reads is what the first one has given. -/
theorem cache_refines_disk_writeThenRead : ∃ machine final,
    (recoverFromLog 0).run (Machine.boot (fun _ => Bytes.zero) (initlog ROOTDEV Mkfs.superblock)) =
      .ok ⟨⟩ machine ∧
    exec step (System.boot machine) writeThenRead = .next final ∧ Refines final ∧
    final.Holds 1 1 ∧ (final.machine.bufs 1).blockno = 100 ∧
    (final.machine.bufs 1).data = final.latest 100 ∧ final.latest 100 = fun _ => 7 := by
  have ran : ∃ value machine, (recoverFromLog 0).run
      (Machine.boot (fun _ => Bytes.zero) (initlog ROOTDEV Mkfs.superblock)) = .ok value machine ∧
        ∃ final, exec step (System.boot machine) writeThenRead = .next final ∧
          final.Holds 1 1 ∧ (final.machine.bufs 1).blockno = 100 ∧ final.reading 1 = none ∧
          ¬ InLog final.machine.log 100 ∧ (∀ offset, final.latest 100 offset = 7) ∧
          Meets step (fun system action => action.LeavesLog system) (System.boot machine)
            writeThenRead :=
    wp_false_iff.mp (by decide +kernel)
  rcases ran with ⟨_, machine, booted, final, reached, held, isBlock, idle, outside, given,
    leaves⟩
  have refines := cache_refines_disk _ _ machine writeThenRead final (by decide) booted leaves reached
  have read := (refines.holds 1 1 held (by simp [idle])).2
  rw [isBlock] at read
  exact ⟨machine, final, booted, reached, refines, held, isBlock, read outside, funext given⟩

end Shared
end Buffer
end Xv6
