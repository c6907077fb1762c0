import Mathlib.Data.BitVec
import Mathlib.Data.Finset.Card
import Xv6.Foundation.RedoLog
import Xv6.Log.Commit

namespace Xv6
namespace Log

open Foundation Function
open Buffer

/-!
# The blocks that the log moves

What the pieces of `log.c` do to the cache and to the disk when nothing stands
in their way: no block they need is locked, and there are enough free buffers.
Each piece uses one or two buffers and releases them again, so its effect is
that a buffer has taken over a block, together with the writes it made.

The conditions under which the pieces run are kept for one block at a time.  A
use of one block keeps them for every other block, whatever buffer it used.
-/

/-! ## Conditions on a block, and the use of a buffer -/

/-- What a piece of code did to the buffers and to the disk. -/
structure Effect (before after : Machine) (bufs : Index → Buf) (writes : List (Nat × Block)) :
    Prop where
  bufs : after.bufs = bufs
  ring : Complete after.ring
  disk : after.disk = RedoLog.applyWrites before.disk writes
  writes : after.writes = before.writes ++ writes
  log : after.log = before.log

variable {before after machine : Machine}

theorem Effect.trans {middle : Machine} {bufs bufs' : Index → Buf}
    {writes writes' : List (Nat × Block)} (first : Effect before middle bufs writes)
    (second : Effect middle after bufs' writes') : Effect before after bufs' (writes ++ writes') where
  bufs := second.bufs
  ring := second.ring
  disk := by rw [second.disk, first.disk, RedoLog.applyWrites_append]
  writes := by rw [second.writes, first.writes, List.append_assoc]
  log := second.log.trans first.log

/-- One buffer was used for a block and then released. -/
abbrev Settled (before after : Machine) (index : Index) (buf : Buf)
    (writes : List (Nat × Block)) : Prop :=
  Effect before after (update before.bufs index buf) writes

/-- A buffer with the block and its contents, which nobody has locked. -/
def Buf.of (dev blockno : Nat) (refcnt : BitVec 32) (data : Block) : Buf where
  valid := true
  dev := dev
  blockno := blockno
  holder := none
  refcnt := refcnt
  data := data

section

variable (machine : Machine) (blockno : Nat)

/-- The block can be read without waiting, and counting one more reader does
not wrap. -/
def Available : Prop :=
  ∀ index, machine.Keyed machine.log.dev blockno index →
    (machine.bufs index).holder = none ∧ (machine.bufs index).refcnt + 1 ≠ 0

/-- Reading the block from the cache gives what is on the disk. -/
def Coherent : Prop :=
  ∀ index, machine.Keyed machine.log.dev blockno index → (machine.bufs index).valid →
    (machine.bufs index).data = machine.disk blockno

/-- The block is cached with this data in a buffer that cannot be recycled. -/
def Secured (data : Block) : Prop :=
  ∃ index, machine.Keyed machine.log.dev blockno index ∧ (machine.bufs index).valid ∧
    (machine.bufs index).data = data ∧ (machine.bufs index).refcnt ≠ 0

/-- The block is cached in a buffer that cannot be recycled. -/
def Cached : Prop :=
  ∃ index, machine.Keyed machine.log.dev blockno index ∧ (machine.bufs index).refcnt ≠ 0

end

variable {blockno other entry : Nat} {data : Block}

theorem Secured.cached (secured : Secured machine blockno data) : Cached machine blockno := by
  rcases secured with ⟨index, keyed, _, _, counted⟩
  exact ⟨index, keyed, counted⟩

/-- The buffers that `bget` cannot recycle. -/
def busy (machine : Machine) : Nat :=
  (Finset.univ.filter fun index => (machine.bufs index).refcnt ≠ 0).card

variable {index otherIndex : Index}

theorem countable_of_chosen (available : Available machine blockno)
    (chosen : machine.Chosen machine.log.dev blockno index) :
    (machine.bufs index).refcnt + 1 ≠ 0 := by
  rcases chosen with hit | ⟨isFree, _⟩
  · exact (available index hit).2
  · rw [isFree]
    decide

theorem ne_of_chosen {dev : Nat}
    (chosen : machine.Chosen dev blockno index) (different : other ≠ blockno)
    (keyed : machine.Keyed dev other otherIndex)
    (counted : (machine.bufs otherIndex).refcnt ≠ 0) : otherIndex ≠ index := by
  rintro rfl
  rcases chosen with hit | ⟨isFree, _⟩
  · exact different (keyed.2.symm.trans hit.2)
  · exact counted isFree

namespace Settled

variable {refcnt : BitVec 32} {writes : List (Nat × Block)}
  (settled : Settled before after index (Buf.of before.log.dev blockno refcnt data) writes)
  (chosen : before.Chosen before.log.dev blockno index)

include settled chosen

theorem wellformed (ok : Wellformed before) (device : before.log.dev ≠ 0) : Wellformed after :=
  wellformed_update ok device chosen settled.bufs settled.ring ⟨rfl, rfl⟩ fun _ => rfl

/-- Afterwards a buffer carries a block of the device only if it did before,
or if it is the one that was used. -/
theorem keyed_before
    (keyed : after.Keyed after.log.dev other otherIndex) (different : other ≠ blockno) :
    otherIndex ≠ index ∧ before.Keyed before.log.dev other otherIndex ∧
      after.bufs otherIndex = before.bufs otherIndex := by
  have notUsed : otherIndex ≠ index := by
    rintro rfl
    unfold Machine.Keyed at keyed
    rw [settled.bufs, update_self] at keyed
    exact different keyed.2.symm
  have same : after.bufs otherIndex = before.bufs otherIndex := by
    rw [settled.bufs, update_of_ne notUsed]
  refine ⟨notUsed, ?_, same⟩
  unfold Machine.Keyed at keyed ⊢
  rwa [same, settled.log] at keyed

theorem available (free : Available before other) (different : other ≠ blockno) :
    Available after other := by
  intro otherIndex keyed
  rcases settled.keyed_before chosen keyed different with ⟨_, keyedBefore, same⟩
  rw [same]
  exact free otherIndex keyedBefore

theorem coherent (clean : Coherent before other) (different : other ≠ blockno)
    (unwritten : other ∉ writes.map Prod.fst) : Coherent after other := by
  intro otherIndex keyed isValid
  rcases settled.keyed_before chosen keyed different with ⟨_, keyedBefore, same⟩
  rw [same] at isValid ⊢
  rw [clean otherIndex keyedBefore isValid, settled.disk, RedoLog.applyWrites_of_not_mem unwritten]

theorem cached (isCached : Cached before other) (different : other ≠ blockno) :
    Cached after other := by
  rcases isCached with ⟨otherIndex, keyed, counted⟩
  have same : after.bufs otherIndex = before.bufs otherIndex := by
    rw [settled.bufs, update_of_ne (ne_of_chosen chosen different keyed counted)]
  refine ⟨otherIndex, ?_, by rwa [same]⟩
  rwa [Machine.Keyed, same, settled.log]

theorem secured {contents : Block} (secure : Secured before other contents)
    (different : other ≠ blockno) : Secured after other contents := by
  rcases secure with ⟨otherIndex, keyed, isValid, holds, counted⟩
  have same : after.bufs otherIndex = before.bufs otherIndex := by
    rw [settled.bufs, update_of_ne (ne_of_chosen chosen different keyed counted)]
  refine ⟨otherIndex, ?_, by rwa [same], by rwa [same], by rwa [same]⟩
  unfold Machine.Keyed at keyed ⊢
  rwa [same, settled.log]

variable (ok : Wellformed before) (device : before.log.dev ≠ 0)
include ok device

theorem keyed_self {other : Index} (keyed : after.Keyed after.log.dev blockno other) :
    after.bufs other = Buf.of before.log.dev blockno refcnt data := by
  have used : after.bufs index = Buf.of before.log.dev blockno refcnt data := by
    rw [settled.bufs, update_self]
  have same : other = index := by
    refine (settled.wellformed chosen ok device).unique other index ?_ ?_ ?_
    · rw [keyed.1, settled.log]
      exact device
    · rw [keyed.1, settled.log, used]
      rfl
    · rw [keyed.2, used]
      rfl
  rw [same, used]

theorem available_self (countable : refcnt + 1 ≠ 0) : Available after blockno := by
  intro other keyed
  rw [settled.keyed_self chosen ok device keyed]
  exact ⟨rfl, countable⟩

theorem coherent_self (clean : data = after.disk blockno) : Coherent after blockno := by
  intro other keyed _
  rw [settled.keyed_self chosen ok device keyed]
  exact clean

end Settled

theorem busy_le {buf : Buf}
    (bufs : after.bufs = update before.bufs index buf) : busy after ≤ busy before + 1 := by
  have included : (Finset.univ.filter fun other => (after.bufs other).refcnt ≠ 0) ⊆
      insert index (Finset.univ.filter fun other => (before.bufs other).refcnt ≠ 0) := by
    intro other member
    by_cases isUsed : other = index
    · simp [isUsed]
    · rw [bufs] at member
      simpa [isUsed] using member
  exact (Finset.card_le_card included).trans (Finset.card_insert_le _ _)

namespace Settled

variable {buf : Buf} {writes : List (Nat × Block)}

theorem refcnt_unchanged (settled : Settled before after index buf writes)
    (same : buf.refcnt = (before.bufs index).refcnt) (other : Index) :
    (after.bufs other).refcnt = (before.bufs other).refcnt := by
  rw [settled.bufs]
  by_cases isUsed : other = index
  · rw [isUsed, update_self, same]
  · rw [update_of_ne isUsed]

end Settled

theorem exists_free (room : busy machine < NBUF) : ∃ index, (machine.bufs index).refcnt = 0 := by
  by_contra none
  have all : (Finset.univ.filter fun index => (machine.bufs index).refcnt ≠ 0) = Finset.univ :=
    Finset.filter_true_of_mem fun index _ isFree => none ⟨index, isFree⟩
  rw [busy, all, Finset.card_univ, Fintype.card_fin] at room
  exact lt_irrefl _ room

/-! ## The steps of a use -/

section

variable {pid : Pid} (complete : Complete machine.ring)

/-- What `bread` leaves in the buffer it returns. -/
def loadedBuf (machine : Machine) (pid : Pid) (blockno : Nat) (index : Index) : Buf where
  valid := true
  dev := machine.log.dev
  blockno := blockno
  holder := some pid
  refcnt := (machine.bufs index).refcnt + 1
  data := machine.contents machine.log.dev blockno index

theorem bread_effect (ok : Wellformed machine) (available : Available machine blockno)
    (room : (∃ index, machine.Keyed machine.log.dev blockno index) ∨
      ∃ index, (machine.bufs index).refcnt = 0) :
    Wp (bread pid machine.log.dev blockno) machine fun index after =>
      machine.Chosen machine.log.dev blockno index ∧
        Effect machine after (update machine.bufs index (loadedBuf machine pid blockno index)) [] := by
  refine (bread_wp pid machine.log.dev blockno ok.ring).mono ?_ ?_
  · rintro index after ⟨chosen, _, rfl⟩
    rw [Machine.loaded_eq]
    exact ⟨chosen, rfl, ok.ring, rfl, (List.append_nil _).symm, rfl⟩
  · rintro _ _ (⟨index, chosen, isLocked⟩ | none)
    · rcases chosen with keyed | ⟨isFree, _⟩
      · exact isLocked (available index keyed).1
      · exact isLocked (ok.idle index isFree)
    · rcases room with ⟨index, keyed⟩ | ⟨index, isFree⟩
      · exact (none index).1 keyed
      · exact (none index).2 isFree

include complete

theorem modifyData_effect (update : Block → Block) :
    Wp (modifyData index update) machine fun _ after => Effect machine after
      (Function.update machine.bufs index
        { machine.bufs index with data := update (machine.bufs index).data }) [] := by
  rw [modifyData, wp_modify]
  exact ⟨rfl, complete, rfl, (List.append_nil _).symm, rfl⟩

theorem bwrite_effect (held : (machine.bufs index).holder = some pid) :
    Wp (bwrite pid index) machine fun _ after => Effect machine after machine.bufs
      [((machine.bufs index).blockno, (machine.bufs index).data)] := by
  simp only [bwrite, diskWrite, wp_bind, wp_get, wp_ite, held, ne_eq, not_true_eq_false, if_false,
    wp_modify]
  exact ⟨rfl, complete, rfl, rfl, rfl⟩

theorem bunpin_effect :
    Wp (bunpin index) machine fun _ after => Effect machine after
      (update machine.bufs index
        { machine.bufs index with refcnt := (machine.bufs index).refcnt - 1 }) [] := by
  rw [bunpin, wp_modify]
  exact ⟨rfl, complete, rfl, (List.append_nil _).symm, rfl⟩

theorem brelse_effect (held : (machine.bufs index).holder = some pid) :
    Wp (brelse pid index) machine fun _ after => Effect machine after
      (update machine.bufs index { machine.bufs index with
        holder := none
        refcnt := (machine.bufs index).refcnt - 1 }) [] := by
  refine (brelse_wp complete held).imp ?_
  rintro _ after ⟨ring, stillComplete, rfl⟩
  exact ⟨rfl, stillComplete, rfl, (List.append_nil _).symm, rfl⟩

end

/-! ## The four uses of the cache -/

section

variable {pid : Pid} (ok : Wellformed machine) (device : machine.log.dev ≠ 0)
include ok

section

variable (available : Available machine machine.log.start)
  (room : ∃ index, (machine.bufs index).refcnt = 0)
include available room

theorem writeHead_wp :
    Wp (writeHead pid) machine fun _ after => ∃ index header,
        machine.Chosen machine.log.dev machine.log.start index ∧
        header = encodeHeader machine.log.lh
          (machine.contents machine.log.dev machine.log.start index) ∧
        Settled machine after index
          (Buf.of machine.log.dev machine.log.start (machine.bufs index).refcnt header)
          [(machine.log.start, header)] := by
  simp only [writeHead, wp_bind, wp_get]
  refine (bread_effect ok available (Or.inr room)).imp ?_
  rintro index loaded ⟨chosen, afterRead⟩
  refine (modifyData_effect afterRead.ring _).imp ?_
  intro _ modified afterModify
  rw [afterRead.bufs, update_self, update_idem] at afterModify
  refine (bwrite_effect afterModify.ring ?_).imp ?_
  · rw [afterModify.bufs, update_self]
    rfl
  intro _ written afterWrite
  rw [afterModify.bufs, update_self] at afterWrite
  refine (brelse_effect afterWrite.ring ?_).imp ?_
  · rw [afterWrite.bufs, update_self]
    rfl
  intro _ released afterRelease
  rw [afterWrite.bufs, update_self, update_idem] at afterRelease
  have whole := ((afterRead.trans afterModify).trans afterWrite).trans afterRelease
  refine ⟨index, _, chosen, rfl, ?_⟩
  simpa [Settled, loadedBuf, Buf.of] using whole

theorem readHead_wp :
    Wp (readHead pid) machine fun _ after => ∃ index header,
        machine.Chosen machine.log.dev machine.log.start index ∧
        header = machine.contents machine.log.dev machine.log.start index ∧
        Settled machine { after with log := machine.log } index
          (Buf.of machine.log.dev machine.log.start (machine.bufs index).refcnt header) [] ∧
        after.log = { machine.log with lh := decodeHeader header } := by
  simp only [readHead, wp_bind, wp_get, wp_modify]
  refine (bread_effect ok available (Or.inr room)).imp ?_
  rintro index loaded ⟨chosen, afterRead⟩
  refine (brelse_effect ?_ ?_).imp ?_
  · exact afterRead.ring
  · simp only [afterRead.bufs, update_self]
    rfl
  intro _ released afterRelease
  have bufs := afterRelease.bufs
  simp only [afterRead.bufs, update_self, update_idem] at bufs
  refine ⟨index, _, chosen, rfl, ⟨?_, afterRelease.ring, ?_, ?_, rfl⟩, ?_⟩
  · simpa [loadedBuf, Buf.of] using bufs
  · exact afterRelease.disk.trans afterRead.disk
  · simpa [afterRead.writes] using afterRelease.writes
  · rw [afterRelease.log, afterRead.bufs, afterRead.log, update_self]
    rfl

end

include device

/-- With one block read, a second one can be read if it is cached or if two
buffers were free. -/
theorem bread_second_effect {first second : Nat} {loaded : Machine}
    (chosen : machine.Chosen machine.log.dev first index) (afterRead : Effect machine loaded
      (update machine.bufs index (loadedBuf machine pid first index)) [])
    (available : Available machine first) (different : second ≠ first)
    (availableSecond : Available machine second)
    (room : Cached machine second ∨ busy machine + 1 < NBUF) :
    Wp (bread pid machine.log.dev second) loaded fun other after => other ≠ index ∧
      loaded.Chosen loaded.log.dev second other ∧
      Effect loaded after (update loaded.bufs other (loadedBuf loaded pid second other)) [] := by
  have counted := countable_of_chosen available chosen
  have loadedOk : Wellformed loaded :=
    wellformed_update ok device chosen afterRead.bufs afterRead.ring ⟨rfl, rfl⟩ fun isFree =>
      absurd isFree counted
  have used : loaded.bufs index = loadedBuf machine pid first index := by
    rw [afterRead.bufs, update_self]
  have others : ∀ other, other ≠ index → loaded.bufs other = machine.bufs other := by
    intro other distinct
    rw [afterRead.bufs, update_of_ne distinct]
  have notUsed : ∀ other, loaded.Keyed loaded.log.dev second other → other ≠ index := by
    rintro other keyed rfl
    rw [Machine.Keyed, used] at keyed
    exact different keyed.2.symm
  have loadedAvailable : Available loaded second := by
    intro other keyed
    have distinct := notUsed other keyed
    rw [Machine.Keyed, others other distinct, afterRead.log] at keyed
    rw [others other distinct]
    exact availableSecond other keyed
  have loadedRoom : (∃ other, loaded.Keyed loaded.log.dev second other) ∨
      ∃ other, (loaded.bufs other).refcnt = 0 := by
    rcases room with ⟨other, keyed, isCounted⟩ | room
    · refine Or.inl ⟨other, ?_⟩
      rwa [Machine.Keyed, others other (ne_of_chosen chosen different keyed isCounted),
        afterRead.log]
    · right
      apply exists_free
      have more := busy_le afterRead.bufs
      omega
  rw [← afterRead.log]
  refine (bread_effect loadedOk loadedAvailable loadedRoom).imp ?_
  rintro other after ⟨chosenSecond, effect⟩
  refine ⟨?_, chosenSecond, effect⟩
  rcases chosenSecond with keyed | ⟨isFree, _⟩
  · exact notUsed other keyed
  · rintro rfl
    rw [used] at isFree
    exact counted isFree

theorem writeLogBlock_wp {tail : Nat} (different : entry ≠ machine.log.start + tail + 1)
    (available : Available machine (machine.log.start + tail + 1))
    (unlocked : Available machine entry) (secured : Secured machine entry data)
    (room : ∃ index, (machine.bufs index).refcnt = 0) :
    Wp (writeLogBlock pid tail entry) machine fun _ after => ∃ index,
        machine.Chosen machine.log.dev (machine.log.start + tail + 1) index ∧
        Settled machine after index
          (Buf.of machine.log.dev (machine.log.start + tail + 1) (machine.bufs index).refcnt data)
          [(machine.log.start + tail + 1, data)] := by
  rcases secured with ⟨source, keyed, isValid, holds, counted⟩
  simp only [writeLogBlock, wp_bind, wp_get]
  refine (bread_effect ok available (Or.inr room)).imp ?_
  rintro target loaded ⟨chosen, afterTarget⟩
  refine (bread_second_effect ok device chosen afterTarget available different unlocked
    (Or.inl ⟨source, keyed, counted⟩)).imp ?_
  rintro found both ⟨notTarget, chosenSource, afterSource⟩
  have sourceNotTarget := ne_of_chosen chosen different keyed counted
  have atTarget : both.bufs target = loadedBuf machine pid (machine.log.start + tail + 1) target := by
    rw [afterSource.bufs, update_of_ne notTarget.symm, afterTarget.bufs, update_self]
  have keyedLoaded : loaded.Keyed loaded.log.dev entry source := by
    rwa [Machine.Keyed, afterTarget.bufs, update_of_ne sourceNotTarget, afterTarget.log]
  have isSource : found = source := by
    rcases chosenSource with alsoKeyed | ⟨_, missing⟩
    · rw [Machine.Keyed, afterTarget.bufs, update_of_ne notTarget, afterTarget.log] at alsoKeyed
      exact ok.unique found source (alsoKeyed.1.symm ▸ device) (alsoKeyed.1.trans keyed.1.symm)
        (alsoKeyed.2.trans keyed.2.symm)
    · exact absurd keyedLoaded (missing source)
  subst found
  have original : machine.bufs source =
      Buf.of machine.log.dev entry (machine.bufs source).refcnt data :=
    Buf.ext isValid keyed.1 keyed.2 (unlocked source keyed).1 rfl holds
  have atSource : both.bufs source =
      { Buf.of machine.log.dev entry ((machine.bufs source).refcnt + 1) data with
        holder := some pid } := by
    have same : loaded.bufs source = machine.bufs source := by
      rw [afterTarget.bufs, update_of_ne notTarget]
    rw [afterSource.bufs, update_self, loadedBuf, Machine.contents, same,
      if_pos ⟨keyedLoaded, isValid⟩, afterTarget.log, holds]
    rfl
  refine (modifyData_effect afterSource.ring _).imp ?_
  intro _ modified afterModify
  rw [atTarget, atSource] at afterModify
  refine (bwrite_effect afterModify.ring ?_).imp ?_
  · rw [afterModify.bufs, update_self]
    rfl
  intro _ written afterWrite
  rw [afterModify.bufs, update_self] at afterWrite
  refine (brelse_effect afterWrite.ring ?_).imp ?_
  · rw [afterWrite.bufs, update_of_ne notTarget, atSource]
  intro _ one afterOne
  rw [afterWrite.bufs, update_of_ne notTarget, atSource] at afterOne
  refine (brelse_effect afterOne.ring ?_).imp ?_
  · rw [afterOne.bufs, update_of_ne notTarget.symm, update_self]
    rfl
  intro _ after afterTwo
  rw [afterOne.bufs, update_of_ne notTarget.symm, update_self] at afterTwo
  have whole := ((((afterTarget.trans afterSource).trans afterModify).trans afterWrite).trans
    afterOne).trans afterTwo
  refine ⟨target, chosen, ?_, whole.ring, whole.disk, whole.writes, whole.log⟩
  rw [whole.bufs]
  funext other
  by_cases isTarget : other = target
  · subst other
    simp [loadedBuf, Buf.of]
  · by_cases isSource : other = source
    · subst other
      simpa [isTarget, Buf.of] using original.symm
    · simp [isTarget, isSource, afterSource.bufs, afterTarget.bufs]

/-- `install_trans` reads a block of the log and writes it to its home.  The
two buffers are settled one after the other. -/
theorem installBlock_wp {tail : Nat} (different : entry ≠ machine.log.start + tail + 1)
    (available : Available machine (machine.log.start + tail + 1))
    (unlocked : Available machine entry) (room : ∃ index, (machine.bufs index).refcnt = 0)
    (roomHome : Cached machine entry ∨ busy machine + 1 < NBUF) :
    Wp (installBlock pid tail entry) machine fun _ after => ∃ lbuf dbuf middle,
        machine.Chosen machine.log.dev (machine.log.start + tail + 1) lbuf ∧
        Settled machine middle lbuf
          (Buf.of machine.log.dev (machine.log.start + tail + 1) (machine.bufs lbuf).refcnt
            (machine.contents machine.log.dev (machine.log.start + tail + 1) lbuf)) [] ∧
        middle.Chosen middle.log.dev entry dbuf ∧
        Settled middle after dbuf
          (Buf.of middle.log.dev entry ((middle.bufs dbuf).refcnt - 1)
            (machine.contents machine.log.dev (machine.log.start + tail + 1) lbuf))
          [(entry, machine.contents machine.log.dev (machine.log.start + tail + 1) lbuf)] := by
  simp only [installBlock, wp_bind, wp_get]
  refine (bread_effect ok available (Or.inr room)).imp ?_
  rintro lbuf loaded ⟨chosen, afterLog⟩
  refine (bread_second_effect ok device chosen afterLog available different unlocked roomHome).imp ?_
  rintro dbuf both ⟨notLog, chosenHome, afterHome⟩
  have atLog : both.bufs lbuf = loadedBuf machine pid (machine.log.start + tail + 1) lbuf := by
    rw [afterHome.bufs, update_of_ne notLog.symm, afterLog.bufs, update_self]
  have atHome : both.bufs dbuf = loadedBuf loaded pid entry dbuf := by
    rw [afterHome.bufs, update_self]
  refine (modifyData_effect afterHome.ring _).imp ?_
  intro _ modified afterModify
  rw [atLog, atHome] at afterModify
  refine (bwrite_effect afterModify.ring ?_).imp ?_
  · rw [afterModify.bufs, update_self]
    rfl
  intro _ written afterWrite
  rw [afterModify.bufs, update_self] at afterWrite
  refine (bunpin_effect afterWrite.ring).imp ?_
  intro _ unpinned afterUnpin
  rw [afterWrite.bufs, update_self, update_idem] at afterUnpin
  refine (brelse_effect afterUnpin.ring ?_).imp ?_
  · rw [afterUnpin.bufs, update_of_ne notLog.symm, atLog]
    rfl
  intro _ one afterOne
  rw [afterUnpin.bufs, update_of_ne notLog.symm, atLog] at afterOne
  refine (brelse_effect afterOne.ring ?_).imp ?_
  · rw [afterOne.bufs, update_of_ne notLog, update_self]
    rfl
  intro _ after afterTwo
  rw [afterOne.bufs, update_of_ne notLog, update_self] at afterTwo
  have whole := (((((afterLog.trans afterHome).trans afterModify).trans afterWrite).trans
    afterUnpin).trans afterOne).trans afterTwo
  let middle : Machine := { machine with
    bufs := update machine.bufs lbuf
      (Buf.of machine.log.dev (machine.log.start + tail + 1) (machine.bufs lbuf).refcnt
        (machine.contents machine.log.dev (machine.log.start + tail + 1) lbuf)) }
  have sameHome : middle.bufs dbuf = loaded.bufs dbuf := by
    rw [afterLog.bufs, update_of_ne notLog]
    exact update_of_ne notLog _ _
  have sameKeys : ∀ other, middle.Keyed middle.log.dev entry other ↔
      loaded.Keyed loaded.log.dev entry other := by
    intro other
    rw [Machine.Keyed, Machine.Keyed, afterLog.bufs, afterLog.log]
    by_cases isLog : other = lbuf
    · simp [middle, isLog, loadedBuf, Buf.of]
    · simp [middle, isLog]
  refine ⟨lbuf, dbuf, middle, chosen, ⟨rfl, ok.ring, rfl, (List.append_nil _).symm, rfl⟩, ?_,
    ?_, whole.ring, whole.disk, whole.writes, whole.log⟩
  · rcases chosenHome with keyed | ⟨isFree, missing⟩
    · exact Or.inl ((sameKeys dbuf).mpr keyed)
    · exact Or.inr ⟨by rw [sameHome]; exact isFree, fun other keyed =>
        missing other ((sameKeys other).mp keyed)⟩
  · rw [whole.bufs, sameHome]
    funext other
    by_cases isHome : other = dbuf
    · subst other
      simp [loadedBuf, Buf.of, afterLog.log, middle]
    · by_cases isLog : other = lbuf
      · subst other
        simp [isHome, middle, loadedBuf, Buf.of]
      · simp [isHome, isLog, middle, afterHome.bufs, afterLog.bufs]

end

end Log
end Xv6
