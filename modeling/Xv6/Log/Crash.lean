import Mathlib.Logic.Relation
import Xv6.Log.Transfer

namespace Xv6
namespace Log

open Foundation Function
open Buffer

/-!
# Crash atomicity

`commit` copies the logged blocks to the log, writes the header, installs the
blocks in their homes and clears the header; `recover_from_log` installs what a
header on the disk records and clears it.  Their loops run to the end, and the
writes they make are those of a redo log: a crash may cut them off anywhere,
and so may further crashes during recovery, without leaving a transaction half
done.
-/

/-! ## The loops -/

/-- Where `log.c` keeps the header and the blocks of the log. -/
def geometry (start : Nat) : RedoLog.Geometry Nat Block where
  header := start
  slot := fun index => start + index + 1
  decode := decodeHeader

variable {machine : Machine} {blockno tail entry start : Nat}

theorem contents_of_coherent (clean : Coherent machine blockno)
    (index : Index) : machine.contents machine.log.dev blockno index = machine.disk blockno := by
  unfold Machine.contents
  split
  · rename_i cached
    exact clean index cached.1 cached.2
  · rfl

/-- There is room to install the remaining blocks: their homes are all cached
and one more buffer is free, or there is a free buffer for each of them and
one to spare. -/
def Room (machine : Machine) (rest : List Nat) : Prop :=
  ((∃ index, (machine.bufs index).refcnt = 0) ∧ ∀ entry ∈ rest, Cached machine entry) ∨
    busy machine + rest.length < NBUF

variable {rest : List Nat}

theorem Room.free (room : Room machine rest) : ∃ index, (machine.bufs index).refcnt = 0 := by
  rcases room with ⟨free, _⟩ | few
  · exact free
  · exact exists_free (by omega)

/-- The state of `install_trans` before it installs the entry at `tail`. -/
structure Installing (machine : Machine) (tail : Nat) (rest : List Nat) : Prop where
  wellformed : Wellformed machine
  device : machine.log.dev ≠ 0
  header : Available machine machine.log.start
  slots : ∀ index, tail ≤ index → index < tail + rest.length →
    Available machine (machine.log.start + index + 1) ∧
      Coherent machine (machine.log.start + index + 1)
  homes : ∀ entry ∈ rest, Available machine entry
  room : Room machine rest
  distinct : rest.Nodup
  outside : ∀ entry ∈ rest, entry < machine.log.start ∨
    machine.log.start + tail + rest.length < entry

variable {log : LogState}

theorem Installing.relog
    (installing : Installing { machine with log := log } tail rest) (lh : List Nat)
    (same : machine.log = { log with lh := lh }) : Installing machine tail rest := by
  rcases machine with ⟨bufs, ring, waiting, disk, _, writes, pins, underflow, stolen⟩
  cases same
  exact ⟨⟨installing.wellformed.ring, installing.wellformed.unique, installing.wellformed.idle⟩,
    installing.device, installing.header, installing.slots, installing.homes, installing.room,
    installing.distinct, installing.outside⟩

/-- The writes of `install_trans` from `tail` on. -/
def installs (disk : Nat → Block) (start tail : Nat) (rest : List Nat) : List (Nat × Block) :=
  (rest.zipIdx tail).map fun entry => (entry.1, disk (start + entry.2 + 1))

variable {index : Index}

theorem counted_of_chosen
    (ok : Wellformed machine) (device : machine.log.dev ≠ 0) (isCached : Cached machine blockno)
    (chosen : machine.Chosen machine.log.dev blockno index) : (machine.bufs index).refcnt ≠ 0 := by
  rcases isCached with ⟨other, keyed, counted⟩
  rcases chosen with hit | ⟨_, missing⟩
  · have same : index = other := ok.unique index other (hit.1.symm ▸ device)
      (hit.1.trans keyed.1.symm) (hit.2.trans keyed.2.symm)
    rwa [same]
  · exact absurd keyed (missing other)

theorem busy_eq {before after : Machine}
    (same : ∀ index, (after.bufs index).refcnt = (before.bufs index).refcnt) :
    busy after = busy before := by
  simp only [busy, same]

/-- Installing one block leaves room for the others. -/
theorem Room.install {middle after : Machine} {slot : Nat}
    {lbuf dbuf : Index} {data data' : Block} (room : Room machine (entry :: rest))
    (ok : Wellformed middle) (device : middle.log.dev ≠ 0)
    (chosen : machine.Chosen machine.log.dev slot lbuf) (first : Settled machine middle lbuf
      (Buf.of machine.log.dev slot (machine.bufs lbuf).refcnt data) [])
    (chosenHome : middle.Chosen middle.log.dev entry dbuf) (second : Settled middle after dbuf
      (Buf.of middle.log.dev entry ((middle.bufs dbuf).refcnt - 1) data') [(entry, data')])
    (distinct : (entry :: rest).Nodup) (outside : ∀ other ∈ entry :: rest, other ≠ slot) :
    Room after rest := by
  have unchanged := first.refcnt_unchanged rfl
  rcases room with ⟨⟨free, isFree⟩, cached⟩ | few
  · left
    have isCached : ∀ other ∈ entry :: rest, Cached middle other := fun other member =>
      Settled.cached first chosen (cached other member) (outside other member)
    have counted := counted_of_chosen ok device (isCached entry (by simp)) chosenHome
    refine ⟨⟨free, ?_⟩, fun other member => ?_⟩
    · have notHome : free ≠ dbuf := by
        rintro rfl
        exact counted ((unchanged free).trans isFree)
      rw [second.bufs, update_of_ne notHome, unchanged, isFree]
    · refine Settled.cached second chosenHome (isCached other (by simp [member])) ?_
      rintro rfl
      exact (List.nodup_cons.mp distinct).1 member
  · right
    have more := busy_le second.bufs
    rw [busy_eq unchanged] at more
    rw [List.length_cons] at few
    omega

variable {pid : Pid}

/-- One round of `install_trans`. -/
theorem Installing.step (installing : Installing machine tail (entry :: rest)) :
    Wp (installBlock pid tail entry) machine fun _ after =>
      Installing after (tail + 1) rest ∧ after.log = machine.log ∧
        after.disk = update machine.disk entry (machine.disk (machine.log.start + tail + 1)) ∧
        after.writes = machine.writes ++ [(entry, machine.disk (machine.log.start + tail + 1))] := by
  have slot := installing.slots tail (Nat.le_refl _) (by simp)
  have outside := installing.outside
  rw [List.length_cons] at outside
  have notSlot : ∀ other ∈ entry :: rest, other ≠ machine.log.start + tail + 1 := by
    intro other member
    have := outside other member
    omega
  have roomHome : Cached machine entry ∨ busy machine + 1 < NBUF := by
    rcases installing.room with ⟨_, cached⟩ | few
    · exact Or.inl (cached entry (by simp))
    · rw [List.length_cons] at few
      exact Or.inr (by omega)
  refine (installBlock_wp installing.wellformed installing.device (notSlot entry (by simp)) slot.1
    (installing.homes entry (by simp)) installing.room.free roomHome).imp ?_
  rintro _ after ⟨lbuf, dbuf, middle, chosen, first, chosenHome, second⟩
  rw [contents_of_coherent slot.2] at first second
  have device : middle.log.dev ≠ 0 := by
    rw [first.log]
    exact installing.device
  have middleOk := Settled.wellformed first chosen installing.wellformed installing.device
  have logSame : after.log = machine.log := second.log.trans first.log
  refine ⟨?_, logSame, second.disk.trans (by rw [first.disk]; rfl),
    second.writes.trans (by rw [first.writes, List.append_nil])⟩
  have notHome : ∀ other, other ≠ entry → other ∉ [(entry, machine.disk (machine.log.start +
      tail + 1))].map Prod.fst := by
    simp
  have kept : ∀ other, other ≠ entry → other ≠ machine.log.start + tail + 1 →
      Available machine other → Available after other := fun other notEntry notTail available =>
    Settled.available second chosenHome (Settled.available first chosen available notTail) notEntry
  constructor
  · exact Settled.wellformed second chosenHome middleOk device
  · rw [logSame]
    exact installing.device
  · rw [logSame]
    have := outside entry (by simp)
    exact kept _ (by omega) (by omega) installing.header
  · intro index after_tail inside
    rw [logSame]
    have := outside entry (by simp)
    have slot := installing.slots index (by omega) (by simp; omega)
    refine ⟨kept _ (by omega) (by omega) slot.1, ?_⟩
    exact Settled.coherent second chosenHome
      (Settled.coherent first chosen slot.2 (by omega) (by simp)) (by omega) (notHome _ (by omega))
  · intro other member
    refine kept other ?_ (notSlot other (by simp [member])) (installing.homes other (by simp [member]))
    rintro rfl
    exact (List.nodup_cons.mp installing.distinct).1 member
  · exact installing.room.install middleOk device chosen first chosenHome second
      installing.distinct notSlot
  · exact (List.nodup_cons.mp installing.distinct).2
  · intro other member
    rw [logSame]
    have := outside other (by simp [member])
    omega

/-- The whole of `install_trans`. -/
theorem Installing.run (installing : Installing machine tail rest) :
    Wp (forEntries (installBlock pid) tail rest) machine fun _ after =>
      Installing after (tail + rest.length) [] ∧ after.log = machine.log ∧
        after.disk = RedoLog.applyWrites machine.disk
          (installs machine.disk machine.log.start tail rest) ∧
        after.writes = machine.writes ++ installs machine.disk machine.log.start tail rest := by
  induction rest generalizing machine tail with
  | nil =>
    rw [forEntries, wp_pure]
    exact ⟨installing, rfl, rfl, (List.append_nil _).symm⟩
  | cons entry rest ih =>
    simp only [forEntries, wp_bind]
    refine installing.step.imp ?_
    rintro _ middle ⟨later, logSame, disk, writes⟩
    have sameSlots : installs middle.disk middle.log.start (tail + 1) rest =
        installs machine.disk machine.log.start (tail + 1) rest := by
      unfold installs
      apply List.map_congr_left
      rintro ⟨home, index⟩ member
      have bound := List.mem_zipIdx member
      have := installing.outside entry (by simp)
      rw [List.length_cons] at this
      rw [logSame, disk, update_of_ne (by simp only at bound ⊢; omega)]
    refine (ih later).imp ?_
    rintro _ after ⟨done, logLater, diskLater, writesLater⟩
    rw [sameSlots] at diskLater writesLater
    refine ⟨?_, logLater.trans logSame, ?_, ?_⟩
    · rwa [List.length_cons, show tail + (rest.length + 1) = tail + 1 + rest.length by omega]
    · rw [diskLater, disk]
      rfl
    · rw [writesLater, writes, List.append_assoc]
      rfl

/-! ## Recovery -/

/-- What recovery expects of the header on the disk: distinct homes outside
the part of the log that is in use, and fewer of them than buffers. -/
structure Recoverable (disk : Nat → Block) (start : Nat) : Prop where
  distinct : (decodeHeader (disk start)).Nodup
  outside : ∀ entry ∈ decodeHeader (disk start), entry < start ∨
    start + (decodeHeader (disk start)).length < entry
  few : (decodeHeader (disk start)).length < NBUF

variable {after data disk : Nat → Block}

theorem chosen_boot (device : log.dev ≠ 0) (blockno : Nat)
    (index : Index) : ¬ (Machine.boot disk log).Keyed log.dev blockno index :=
  fun keyed => device keyed.1.symm

theorem clearHeader_writeHead_wp (ok : Wellformed machine)
    (available : Available machine machine.log.start)
    (room : ∃ index, (machine.bufs index).refcnt = 0) :
    Wp (do clearHeader; writeHead pid) machine fun _ after => ∃ cleared,
      headerCount cleared = 0 ∧ after.disk = update machine.disk machine.log.start cleared ∧
        after.writes = machine.writes ++ [(machine.log.start, cleared)] := by
  simp only [clearHeader, wp_bind, wp_modify]
  refine (writeHead_wp ?_ ?_ ?_).imp ?_
  · exact ⟨ok.ring, ok.unique, ok.idle⟩
  · exact available
  · exact room
  · rintro _ after ⟨index, header, _, encoded, settled⟩
    refine ⟨header, ?_, settled.disk, settled.writes⟩
    rw [encoded]
    exact headerCount_encodeHeader _ (Nat.zero_le _)

/-- From a booted machine `recover_from_log` completes, and its writes are a
recovery of the redo log. -/
theorem recoverFromLog_wp (device : log.dev ≠ 0) (recoverable : Recoverable disk log.start) :
    Wp (recoverFromLog pid) (Machine.boot disk log) fun _ after => ∃ cleared,
      headerCount cleared = 0 ∧ after.writes = (geometry log.start).recovery disk cleared ∧
        after.disk = RedoLog.applyWrites disk after.writes := by
  simp only [recoverFromLog, wp_bind]
  refine (readHead_wp (wellformed_boot disk log) ?_ ?_).imp ?_
  · exact fun index keyed => absurd keyed (chosen_boot device _ index)
  · exact ⟨⟨0, by decide⟩, rfl⟩
  rintro _ loaded ⟨index, header, chosen, isHeader, settled, logSame⟩
  have onDisk : header = disk log.start := by
    rw [isHeader, Machine.contents, if_neg fun cached => chosen_boot device _ index cached.1]
    rfl
  have busyNone : busy (Machine.boot disk log) = 0 := by
    simp [busy, Machine.boot, Buf.unused]
  have installing : Installing { loaded with log := (Machine.boot disk log).log } 0
      (decodeHeader (disk log.start)) := by
    have ok := wellformed_boot disk log
    have notCached : ∀ blockno, Available (Machine.boot disk log) blockno ∧
        Coherent (Machine.boot disk log) blockno := fun blockno =>
      ⟨fun other keyed => absurd keyed (chosen_boot device _ other),
        fun other keyed => absurd keyed (chosen_boot device _ other)⟩
    constructor
    · exact Settled.wellformed settled chosen ok device
    · exact device
    · exact Settled.available_self settled chosen ok device (show (0 : BitVec 32) + 1 ≠ 0 by decide)
    · intro slot _ _
      have different : log.start + slot + 1 ≠ log.start := by omega
      exact ⟨Settled.available settled chosen (notCached _).1 different,
        Settled.coherent settled chosen (notCached _).2 different (by simp)⟩
    · intro entry member
      have different : entry ≠ log.start := by
        have := recoverable.outside entry member
        omega
      exact Settled.available settled chosen (notCached _).1 different
    · right
      rw [busy_eq (settled.refcnt_unchanged rfl), busyNone, Nat.zero_add]
      exact recoverable.few
    · exact recoverable.distinct
    · simpa [Machine.boot] using recoverable.outside
  have entries : loaded.log.lh = decodeHeader (disk log.start) := by
    rw [logSame, onDisk]
  simp only [installTrans, wp_bind, wp_get]
  rw [entries]
  refine (installing.relog _ logSame).run.imp ?_
  rintro _ installed ⟨done, logLater, diskLater, writesLater⟩
  have start : loaded.log.start = log.start := by
    rw [logSame]
    rfl
  rw [← wp_bind]
  refine (clearHeader_writeHead_wp done.wellformed done.header done.room.free).imp ?_
  rintro _ after ⟨cleared, empty, diskAfter, writesAfter⟩
  have replayed : installs loaded.disk loaded.log.start 0 (decodeHeader (disk log.start)) =
      (geometry log.start).replay disk := by
    rw [start, show loaded.disk = disk from settled.disk]
    rfl
  have writes : after.writes = (geometry log.start).recovery disk cleared := by
    rw [writesAfter, writesLater, replayed, logLater, start,
      show loaded.writes = [] from settled.writes]
    rfl
  refine ⟨cleared, empty, writes, ?_⟩
  rw [writes, diskAfter, diskLater, replayed, logLater, start,
    show loaded.disk = disk from settled.disk, RedoLog.Geometry.recovery, RedoLog.applyWrites_append]
  rfl

/-! ## Commit -/

/-- The state of `write_log` before it copies the entry at `tail`: all blocks
of the transaction are in the cache with their new contents. -/
structure Logging (machine : Machine) (data : Nat → Block) (tail : Nat) (rest : List Nat) :
    Prop where
  wellformed : Wellformed machine
  device : machine.log.dev ≠ 0
  header : Available machine machine.log.start
  slots : ∀ index, index < tail + rest.length → Available machine (machine.log.start + index + 1)
  written : ∀ index, index < tail → Coherent machine (machine.log.start + index + 1)
  homes : ∀ entry ∈ machine.log.lh, Available machine entry ∧ Secured machine entry (data entry)
  free : ∃ index, (machine.bufs index).refcnt = 0
  outside : ∀ entry ∈ machine.log.lh, entry < machine.log.start ∨
    machine.log.start + tail + rest.length < entry
  remaining : ∀ entry ∈ rest, entry ∈ machine.log.lh

/-- The writes of `write_log` from `tail` on. -/
def logCopies (data : Nat → Block) (start tail : Nat) (rest : List Nat) : List (Nat × Block) :=
  (rest.zipIdx tail).map fun entry => (start + entry.2 + 1, data entry.1)

/-- One round of `write_log`. -/
theorem Logging.step (logging : Logging machine data tail (entry :: rest)) :
    Wp (writeLogBlock pid tail entry) machine fun _ after =>
      Logging after data (tail + 1) rest ∧ after.log = machine.log ∧
        after.disk = update machine.disk (machine.log.start + tail + 1) (data entry) ∧
        after.writes = machine.writes ++ [(machine.log.start + tail + 1, data entry)] := by
  have isEntry := logging.remaining entry (by simp)
  have outside := logging.outside
  rw [List.length_cons] at outside
  have notSlot : ∀ other ∈ machine.log.lh, other ≠ machine.log.start + tail + 1 := by
    intro other member
    have := outside other member
    omega
  have slot := logging.slots tail (by simp)
  refine (writeLogBlock_wp logging.wellformed logging.device (notSlot entry isEntry) slot
    (logging.homes entry isEntry).1 (logging.homes entry isEntry).2 logging.free).imp ?_
  rintro _ after ⟨index, chosen, settled⟩
  have logSame := settled.log
  have start : after.log.start = machine.log.start := by rw [logSame]
  refine ⟨?_, logSame, settled.disk, settled.writes⟩
  constructor
  · exact Settled.wellformed settled chosen logging.wellformed logging.device
  · rw [logSame]
    exact logging.device
  · rw [start]
    exact Settled.available settled chosen logging.header (by omega)
  · intro other inside
    rw [start]
    by_cases isTail : other = tail
    · rw [isTail]
      exact Settled.available_self settled chosen logging.wellformed logging.device
        (countable_of_chosen slot chosen)
    · exact Settled.available settled chosen
        (logging.slots other (by rw [List.length_cons]; omega)) (by omega)
  · intro other before
    rw [start]
    by_cases isTail : other = tail
    · rw [isTail]
      refine Settled.coherent_self settled chosen logging.wellformed logging.device ?_
      rw [settled.disk]
      simp
    · exact Settled.coherent settled chosen (logging.written other (by omega)) (by omega)
        (by simp; omega)
  · intro other member
    rw [logSame] at member
    have home := logging.homes other member
    exact ⟨Settled.available settled chosen home.1 (notSlot other member),
      Settled.secured settled chosen home.2 (notSlot other member)⟩
  · rcases logging.free with ⟨other, isFree⟩
    exact ⟨other, (settled.refcnt_unchanged rfl other).trans isFree⟩
  · intro other member
    rw [logSame] at member ⊢
    have := outside other member
    omega
  · intro other member
    rw [logSame]
    exact logging.remaining other (by simp [member])

/-- The whole of `write_log`. -/
theorem Logging.run (logging : Logging machine data tail rest) :
    Wp (forEntries (writeLogBlock pid) tail rest) machine fun _ after =>
      Logging after data (tail + rest.length) [] ∧ after.log = machine.log ∧
        after.disk = RedoLog.applyWrites machine.disk (logCopies data machine.log.start tail rest) ∧
        after.writes = machine.writes ++ logCopies data machine.log.start tail rest := by
  induction rest generalizing machine tail with
  | nil =>
    rw [forEntries, wp_pure]
    exact ⟨logging, rfl, rfl, (List.append_nil _).symm⟩
  | cons entry rest ih =>
    simp only [forEntries, wp_bind]
    refine logging.step.imp ?_
    rintro _ middle ⟨later, logSame, disk, writes⟩
    refine (ih later).imp ?_
    rintro _ after ⟨done, logLater, diskLater, writesLater⟩
    rw [logSame] at diskLater writesLater
    refine ⟨?_, logLater.trans logSame, ?_, ?_⟩
    · rwa [List.length_cons, show tail + (rest.length + 1) = tail + 1 + rest.length by omega]
    · rw [diskLater, disk]
      rfl
    · rw [writesLater, writes, List.append_assoc]
      rfl

/-- A machine about to commit.  The header on the disk is empty; the blocks in
the in-memory header are distinct, lie outside the log and are pinned in the
cache with their new data; no block that `commit` reads is locked, and one
buffer is free. -/
structure ReadyToCommit (machine : Machine) (data : Nat → Block) : Prop where
  wellformed : Wellformed machine
  device : machine.log.dev ≠ 0
  empty : headerCount (machine.disk machine.log.start) = 0
  fits : machine.log.lh.length + 1 ≤ machine.log.size
  distinct : machine.log.lh.Nodup
  small : ∀ entry ∈ machine.log.lh, entry < 2 ^ 32
  outside : ∀ entry ∈ machine.log.lh, entry < machine.log.start ∨
    machine.log.start + machine.log.size ≤ entry
  region : ∀ offset, offset < machine.log.size → Available machine (machine.log.start + offset)
  homes : ∀ entry ∈ machine.log.lh, Available machine entry ∧ Secured machine entry (data entry)
  free : ∃ index, (machine.bufs index).refcnt = 0

namespace ReadyToCommit

variable (ready : ReadyToCommit machine data)
include ready

/-- Every block of the transaction occupies a buffer, so there are fewer of
them than buffers. -/
theorem few : machine.log.lh.length < NBUF := by
  classical
  have cached : ∀ entry : machine.log.lh.toFinset, ∃ index,
      machine.Keyed machine.log.dev entry index ∧ (machine.bufs index).refcnt ≠ 0 :=
    fun entry => (ready.homes entry (List.mem_toFinset.mp entry.2)).2.cached
  choose place keyed counted using cached
  rcases ready.free with ⟨free, isFree⟩
  have injective : Injective place := by
    intro first second same
    have firstKey := (keyed first).2
    rw [same] at firstKey
    exact Subtype.ext (firstKey.symm.trans (keyed second).2)
  have others : Finset.univ.image place ⊆ Finset.univ.erase free := by
    intro index member
    rcases Finset.mem_image.mp member with ⟨entry, _, rfl⟩
    refine Finset.mem_erase.mpr ⟨?_, Finset.mem_univ _⟩
    intro same
    exact counted entry (same ▸ isFree)
  have bound := Finset.card_le_card others
  rw [Finset.card_image_of_injective _ injective, Finset.card_univ, Fintype.card_coe,
    List.toFinset_card_of_nodup ready.distinct, Finset.card_erase_of_mem (Finset.mem_univ _),
    Finset.card_univ, Fintype.card_fin] at bound
  have positive : 0 < NBUF := by decide
  omega

theorem fits_geometry : RedoLog.Fits (geometry machine.log.start)
    (machine.log.lh.map fun entry => (entry, data entry)) := by
  have fits := ready.fits
  refine ⟨fun first second _ _ same => ?_, fun index _ same => ?_, ?_⟩
  · simp only [geometry] at same
    omega
  · simp only [geometry] at same
    omega
  · intro update member inLog
    rcases List.mem_map.mp member with ⟨entry, isEntry, rfl⟩
    have outside := ready.outside entry isEntry
    rw [List.length_map] at inLog
    simp only [geometry] at inLog
    rcases inLog with isHeader | ⟨index, inside, isSlot⟩ <;> simp only at * <;> omega

theorem logging : Logging machine data 0 machine.log.lh := by
  have fits := ready.fits
  refine ⟨ready.wellformed, ready.device, ?_, fun index inside => ?_, fun index impossible => ?_,
    ready.homes, ready.free, fun entry member => ?_, fun entry member => member⟩
  · exact ready.region 0 (by omega)
  · rw [Nat.add_assoc]
    exact ready.region (index + 1) (by omega)
  · omega
  · have := ready.outside entry member
    omega

end ReadyToCommit

variable {header : Block}

theorem Logging.installing {after : Machine} (logging : Logging machine data machine.log.lh.length [])
    (distinct : machine.log.lh.Nodup)
    (chosen : machine.Chosen machine.log.dev machine.log.start index)
    (settled : Settled machine after index
      (Buf.of machine.log.dev machine.log.start (machine.bufs index).refcnt header)
      [(machine.log.start, header)]) : Installing after 0 machine.log.lh := by
  have start : after.log.start = machine.log.start := by rw [settled.log]
  have notHeader : ∀ entry ∈ machine.log.lh, entry ≠ machine.log.start := by
    intro entry member
    have := logging.outside entry member
    omega
  constructor
  · exact Settled.wellformed settled chosen logging.wellformed logging.device
  · rw [settled.log]
    exact logging.device
  · rw [start]
    exact Settled.available_self settled chosen logging.wellformed logging.device
      (countable_of_chosen logging.header chosen)
  · intro slot _ inside
    rw [start]
    rw [Nat.zero_add] at inside
    exact ⟨Settled.available settled chosen (logging.slots slot (by simpa using inside)) (by omega),
      Settled.coherent settled chosen (logging.written slot inside) (by omega) (by simp; omega)⟩
  · exact fun entry member =>
      Settled.available settled chosen (logging.homes entry member).1 (notHeader entry member)
  · left
    rcases logging.free with ⟨free, isFree⟩
    refine ⟨⟨free, (settled.refcnt_unchanged rfl free).trans isFree⟩, fun entry member => ?_⟩
    exact Settled.cached settled chosen (logging.homes entry member).2.cached
      (notHeader entry member)
  · exact distinct
  · intro entry member
    rw [start]
    have := logging.outside entry member
    simp only [List.length_nil] at this
    omega

/-- From a machine that is ready, `commit` completes, and its writes are those
of a transaction of the redo log. -/
theorem commit_wp (pid : Pid)
    (ready : ReadyToCommit machine data) (nonempty : machine.log.lh ≠ []) :
    Wp (commit pid) machine fun _ after => ∃ header cleared,
      decodeHeader header = machine.log.lh ∧ headerCount cleared = 0 ∧
        after.writes = machine.writes ++ RedoLog.commitWrites (geometry machine.log.start)
          (machine.log.lh.map fun entry => (entry, data entry)) header cleared := by
  have copied : logCopies data machine.log.start 0 machine.log.lh =
      RedoLog.copies (geometry machine.log.start)
        (machine.log.lh.map fun entry => (entry, data entry)) := by
    simp [logCopies, RedoLog.copies, geometry, List.zipIdx_map, comp_def]
  simp only [commit, wp_bind, wp_get]
  rw [if_pos (List.length_pos_iff.mpr nonempty)]
  simp only [writeLog, wp_bind, wp_get]
  refine ready.logging.run.imp ?_
  rintro _ logged ⟨logging, logSame, disk, writes⟩
  rw [Nat.zero_add, ← logSame] at logging
  refine (writeHead_wp logging.wellformed logging.header logging.free).imp ?_
  rintro _ committed ⟨index, header, chosen, encoded, settled⟩
  rw [logSame] at encoded
  have decoded : decodeHeader header = machine.log.lh := by
    rw [encoded]
    exact decodeHeader_encodeHeader _ (Nat.le_of_lt ready.few) ready.small
  have installing := logging.installing (by rw [logSame]; exact ready.distinct) chosen settled
  have logCommitted : committed.log = machine.log := settled.log.trans logSame
  have onDisk : committed.disk = RedoLog.applyWrites machine.disk
      (RedoLog.copies (geometry machine.log.start)
        (machine.log.lh.map fun entry => (entry, data entry)) ++
          [((geometry machine.log.start).header, header)]) := by
    rw [settled.disk, disk, copied, RedoLog.applyWrites_append, logSame]
    rfl
  simp only [installTrans, wp_bind, wp_get]
  rw [logCommitted]
  rw [logSame] at installing
  refine installing.run.imp ?_
  rintro _ installed ⟨done, logInstalled, _, writesInstalled⟩
  rw [← wp_bind]
  refine (clearHeader_writeHead_wp done.wellformed done.header done.room.free).imp ?_
  rintro _ after ⟨cleared, empty, _, writesAfter⟩
  refine ⟨header, cleared, decoded, empty, ?_⟩
  have decodedFst : (geometry machine.log.start).decode header =
      (machine.log.lh.map fun entry => (entry, data entry)).map Prod.fst := by
    simp only [List.map_map, comp_def, List.map_id']
    exact decoded
  have rest := RedoLog.recovery_committed machine.disk ready.fits_geometry decodedFst cleared
  rw [← onDisk] at rest
  have headerOnDisk : committed.disk machine.log.start = header := by
    rw [settled.disk, logSame]
    simp
  have replayed : installs committed.disk machine.log.start 0 machine.log.lh ++
      [(machine.log.start, cleared)] =
        (geometry machine.log.start).recovery committed.disk cleared := by
    rw [RedoLog.Geometry.recovery, RedoLog.Geometry.replay, RedoLog.Geometry.homes]
    simp only [geometry, headerOnDisk, decoded, installs]
  rw [writesAfter, writesInstalled, settled.writes, writes, copied, logInstalled, logCommitted,
    logSame, List.append_assoc _ (installs _ _ _ _), replayed, rest, RedoLog.commitWrites,
    List.append_assoc, List.append_assoc, List.append_assoc]
  rfl

/-! ## Crash atomicity -/

/-- The fields of `struct log` after a reboot, as `initlog` sets them. -/
def rebooted (log : LogState) : LogState :=
  { log with outstanding := 0, committing := false, lh := [] }

/-- The machine boots from a disk, starts recovery, and crashes after some of
its writes. -/
def CrashedRecovery (log : LogState) (disk after : Nat → Block) : Prop :=
  ∃ pid writes,
    writes <+: (finalState (recoverFromLog pid) (Machine.boot disk (rebooted log))).writes ∧
      after = RedoLog.applyWrites disk writes

theorem interrupted_of_crashed (device : log.dev ≠ 0)
    (recoverable : Recoverable disk log.start) (crashed : CrashedRecovery log disk after) :
    (geometry log.start).Interrupted disk after := by
  rcases crashed with ⟨pid, writes, part, rfl⟩
  have recovered : Wp (recoverFromLog pid) (Machine.boot disk (rebooted log)) _ _ :=
    recoverFromLog_wp device recoverable
  rcases recovered.finalState with ⟨_, cleared, empty, whole, _⟩
  refine ⟨cleared, writes, decodeHeader_of_count_zero empty, ?_, rfl⟩
  rwa [whole] at part

theorem Recoverable.kept
    (recoverable : Recoverable disk start) (kept : RedoLog.Kept (geometry start) disk after) :
    Recoverable after start := by
  have homes : decodeHeader (after start) = decodeHeader (disk start) ∨
      decodeHeader (after start) = [] := kept.homes
  rcases homes with same | empty
  · exact ⟨by rw [same]; exact recoverable.distinct, by rw [same]; exact recoverable.outside,
      by rw [same]; exact recoverable.few⟩
  · exact ⟨by simp [empty], by simp [empty], by simp [empty]; decide⟩

theorem Recoverable.sane (recoverable : Recoverable disk start) : (geometry start).Sane disk := by
  intro home member inLog
  have outside := recoverable.outside home member
  rcases inLog with isHeader | ⟨index, inside, isSlot⟩
  · simp only [geometry] at isHeader
    omega
  · simp only [geometry, RedoLog.Geometry.homes] at isSlot inside
    omega

theorem kept_of_crashes (device : log.dev ≠ 0) (recoverable : Recoverable disk log.start)
    (crashes : Relation.ReflTransGen (CrashedRecovery log) disk after) :
    RedoLog.Kept (geometry log.start) disk after := by
  induction crashes with
  | refl => exact RedoLog.Kept.refl _ _
  | tail _ last ih =>
    have recoverableMiddle := recoverable.kept ih
    exact ih.trans (RedoLog.kept_of_interrupted recoverableMiddle.sane
      (interrupted_of_crashed device recoverableMiddle last))

theorem recovered_of_crashes (pid : Pid)
    (device : log.dev ≠ 0) (recoverable : Recoverable disk log.start)
    (crashes : Relation.ReflTransGen (CrashedRecovery log) disk after) :
    ∃ recovered,
      (recoverFromLog pid).run (Machine.boot after (rebooted log)) = .ok ⟨⟩ recovered ∧
        headerCount (recovered.disk log.start) = 0 ∧
        ∀ blockno, blockno ≠ log.start →
          recovered.disk blockno = (geometry log.start).logical disk blockno := by
  have kept := kept_of_crashes device recoverable crashes
  have complete : Wp (recoverFromLog pid) (Machine.boot after (rebooted log)) _ _ :=
    recoverFromLog_wp device (recoverable.kept kept)
  rcases wp_false_iff.mp complete with ⟨_, recovered, ran, cleared, empty, writes, diskAfter⟩
  rw [writes] at diskAfter
  have installed := RedoLog.recovery_complete (geometry log.start) after cleared
  refine ⟨recovered, ran, ?_, fun blockno different => ?_⟩
  · rw [← empty, ← installed.1, diskAfter]
    rfl
  · rw [diskAfter]
    exact (installed.2 blockno different).trans (kept.logical blockno different)

theorem ReadyToCommit.recoverable (ready : ReadyToCommit machine data)
    (homes : decodeHeader (disk machine.log.start) = machine.log.lh ∨
      decodeHeader (disk machine.log.start) = []) : Recoverable disk machine.log.start := by
  have fits := ready.fits
  rcases homes with same | empty
  · refine ⟨by rw [same]; exact ready.distinct, fun entry member => ?_, by rw [same]; exact ready.few⟩
    rw [same] at member ⊢
    have := ready.outside entry member
    omega
  · exact ⟨by simp [empty], by simp [empty], by simp [empty]; decide⟩

/-- Whatever part of the writes of `commit` reaches the disk, and however
often recovery is cut off afterwards, a complete recovery clears the header
and leaves the blocks of the transaction all new or all old.  They are new
exactly if the header was among the writes that reached the disk, as it is when
all of them did.  No other block outside the log changes. -/
def CrashAtomic (machine : Machine) (data : Nat → Block) (pid : Pid) : Prop :=
  ∃ after writes, (commit pid).run machine = .ok ⟨⟩ after ∧
    after.writes = machine.writes ++ writes ∧
    (machine.log.lh ≠ [] → machine.log.start ∈ writes.map Prod.fst) ∧
    ∀ reached, reached <+: writes →
      ∀ disk, Relation.ReflTransGen (CrashedRecovery machine.log)
        (RedoLog.applyWrites machine.disk reached) disk →
      ∀ booter, ∃ recovered,
        (recoverFromLog booter).run (Machine.boot disk (rebooted machine.log)) = .ok ⟨⟩ recovered ∧
        headerCount (recovered.disk machine.log.start) = 0 ∧
        (∀ entry ∈ machine.log.lh, recovered.disk entry =
          if machine.log.start ∈ reached.map Prod.fst then data entry else machine.disk entry) ∧
        ∀ blockno, blockno < machine.log.start ∨ machine.log.start + machine.log.size ≤ blockno →
          blockno ∉ machine.log.lh → recovered.disk blockno = machine.disk blockno

theorem commit_of_empty (nothing : machine.log.lh = []) :
    (commit pid).run machine = .ok ⟨⟩ machine := by
  have returned : Wp (commit pid) machine fun _ after => after = machine := by
    simp [commit, nothing]
  rcases wp_false_iff.mp returned with ⟨_, after, ran, rfl⟩
  exact ran

theorem ReadyToCommit.crashed (ready : ReadyToCommit machine data) {cleared : Block}
    (decoded : decodeHeader header = machine.log.lh) (empty : headerCount cleared = 0)
    {reached : List (Nat × Block)}
    (part : reached <+: RedoLog.commitWrites (geometry machine.log.start)
      (machine.log.lh.map fun entry => (entry, data entry)) header cleared) :
    Recoverable (RedoLog.applyWrites machine.disk reached) machine.log.start ∧
      ∀ blockno, blockno < machine.log.start ∨ machine.log.start + machine.log.size ≤ blockno →
        (geometry machine.log.start).logical (RedoLog.applyWrites machine.disk reached) blockno =
          if machine.log.start ∈ reached.map Prod.fst then
            RedoLog.applyWrites machine.disk
              (machine.log.lh.map fun entry => (entry, data entry)) blockno
          else machine.disk blockno := by
  have addresses : (machine.log.lh.map fun entry => (entry, data entry)).map Prod.fst =
      machine.log.lh := by
    simp [comp_def]
  have cut := RedoLog.commit_interrupted ready.fits_geometry (decoded.trans addresses.symm)
    (decodeHeader_of_count_zero empty) (decodeHeader_of_count_zero ready.empty) part
  rw [addresses] at cut
  refine ⟨ready.recoverable cut.2.1, fun blockno outside => cut.2.2 blockno fun inLog => ?_⟩
  have fits := ready.fits
  rw [List.length_map] at inLog
  simp only [RedoLog.Geometry.InLog, geometry] at inLog
  rcases inLog with isHeader | ⟨index, inside, isSlot⟩ <;> omega

/-- The redo log makes `commit` atomic with respect to crashes. -/
theorem commit_crash_atomic (machine : Machine) (data : Nat → Block) (pid : Pid)
    (ready : ReadyToCommit machine data) : CrashAtomic machine data pid := by
  have fits := ready.fits
  by_cases nothing : machine.log.lh = []
  · refine ⟨machine, [], commit_of_empty nothing, (List.append_nil _).symm,
      fun filled => absurd nothing filled, ?_⟩
    intro reached part disk crashes booter
    rw [List.prefix_nil.mp part] at crashes
    have homes : decodeHeader (machine.disk machine.log.start) = [] :=
      decodeHeader_of_count_zero ready.empty
    rcases recovered_of_crashes booter ready.device (ready.recoverable (Or.inr homes)) crashes with
      ⟨recovered, ran, count, contents⟩
    refine ⟨recovered, ran, count, by simp [nothing], fun blockno outside _ => ?_⟩
    rw [contents blockno (by omega)]
    have logical : (geometry machine.log.start).logical machine.disk = machine.disk :=
      RedoLog.logical_of_homes_nil homes
    exact congrFun logical blockno
  · rcases wp_false_iff.mp (commit_wp pid ready nothing) with
      ⟨_, after, ran, header, cleared, decoded, empty, writes⟩
    refine ⟨after, _, ran, writes, fun _ => ?_, ?_⟩
    · simp [RedoLog.commitWrites, geometry]
    intro reached part disk crashes booter
    rcases ready.crashed decoded empty part with ⟨recoverable, logical⟩
    rcases recovered_of_crashes booter ready.device recoverable crashes with
      ⟨recovered, recovery, count, contents⟩
    refine ⟨recovered, recovery, count, fun entry member => ?_, fun blockno outside absent => ?_⟩
    · have outside := ready.outside entry member
      rw [contents entry (by omega), logical entry outside]
      congr 1
      refine RedoLog.applyWrites_of_write machine.disk ?_
        (List.mem_map.mpr ⟨entry, member, rfl⟩ :
          (entry, data entry) ∈ machine.log.lh.map fun entry => (entry, data entry))
      simpa [comp_def] using ready.distinct
    · rw [contents blockno (by omega), logical blockno outside,
        RedoLog.applyWrites_of_not_mem (by simpa using absent), ite_self]

/-- A machine with one logged block, number `100`, in its first buffer. -/
def oneLoggedBlock : Machine :=
  { Machine.boot (fun _ => Bytes.zero)
      { start := 2, size := 30, outstanding := 0, committing := true, dev := ROOTDEV, lh := [100] }
    with
    bufs := update (fun _ => Buf.unused) 0 (Buf.of ROOTDEV 100 1 fun _ => 7) }

theorem oneLoggedBlock_ready : ReadyToCommit oneLoggedBlock fun _ _ => 7 := by
  have rest : ∀ index, index ≠ 0 → oneLoggedBlock.bufs index = Buf.unused := by
    intro index other
    simp [oneLoggedBlock, other]
  have first : ∀ index, (oneLoggedBlock.bufs index).dev ≠ 0 → index = 0 := by
    intro index nonzero
    by_contra other
    exact nonzero (by rw [rest index other]; rfl)
  have available : ∀ blockno, Available oneLoggedBlock blockno := by
    intro blockno index keyed
    rw [first index (keyed.1.symm ▸ by decide)]
    decide
  refine ⟨⟨⟨_, order_binit, fun index => by simp⟩, ?_, ?_⟩, by decide, by decide, by decide,
    by decide, by decide, by decide, fun offset _ => available _, ?_, ⟨1, rfl⟩⟩
  · intro one other nonzero sameDev _
    rw [first one nonzero, first other (sameDev ▸ nonzero)]
  · intro index isFree
    by_cases same : index = 0
    · subst index
      cases isFree
    · rw [rest index same]
      rfl
  · intro entry member
    rw [List.mem_singleton.mp member]
    exact ⟨available 100, 0, ⟨rfl, rfl⟩, rfl, rfl, by decide⟩

theorem commit_crash_atomic_oneLoggedBlock :
    ReadyToCommit oneLoggedBlock (fun _ _ => 7) ∧ CrashAtomic oneLoggedBlock (fun _ _ => 7) 0 :=
  ⟨oneLoggedBlock_ready, commit_crash_atomic oneLoggedBlock (fun _ _ => 7) 0 oneLoggedBlock_ready⟩

end Log
end Xv6
