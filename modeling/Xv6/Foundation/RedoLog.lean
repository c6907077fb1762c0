import Mathlib.Data.List.Nodup
import Mathlib.Logic.Function.Basic

namespace Xv6
namespace Foundation

open Function

/-!
# Redo logs

A disk is a function from addresses to blocks, and a program changes it by
single-block writes.  A redo log reserves a header block and a sequence of
slots.  The header, once decoded, lists the home addresses of the blocks in
the slots; recovery copies each slot to its home and then clears the header.

The logical contents of a disk are what a complete recovery would make of it.
A recovery that is cut off after any number of its writes keeps the logical
contents, and a committing transaction changes them in one step, when its
header reaches the disk.  Nothing here depends on what addresses and blocks
are, or on how the header is encoded.
-/

universe u v

namespace RedoLog

variable {Address : Type u} {Block : Type v} [DecidableEq Address]

section

variable (disk : Address → Block)

/-- Perform writes in order. -/
def applyWrites (writes : List (Address × Block)) : Address → Block :=
  writes.foldl (fun disk write => update disk write.1 write.2) disk

@[simp] theorem applyWrites_nil : applyWrites disk [] = disk := rfl

@[simp] theorem applyWrites_cons (write : Address × Block) (rest : List (Address × Block)) :
    applyWrites disk (write :: rest) =
      applyWrites (update disk write.1 write.2) rest := rfl

theorem applyWrites_append (first second : List (Address × Block)) :
    applyWrites disk (first ++ second) = applyWrites (applyWrites disk first) second :=
  List.foldl_append

end

variable {writes : List (Address × Block)} {address : Address}

/-- An address that is not written keeps its block. -/
theorem applyWrites_of_not_mem {disk : Address → Block} (absent : address ∉ writes.map Prod.fst) :
    applyWrites disk writes address = disk address := by
  induction writes generalizing disk with
  | nil => rfl
  | cons write rest ih =>
    simp only [List.map_cons, List.mem_cons, not_or] at absent
    rw [applyWrites_cons, ih absent.2, update_of_ne absent.1]

/-- What a written address holds does not depend on the disk before. -/
theorem applyWrites_of_mem {first second : Address → Block} (written : address ∈ writes.map Prod.fst) :
    applyWrites first writes address = applyWrites second writes address := by
  induction writes generalizing first second with
  | nil => cases written
  | cons write rest ih =>
    by_cases later : address ∈ rest.map Prod.fst
    · exact ih later
    · simp only [List.map_cons, List.mem_cons, later, or_false] at written
      rw [applyWrites_cons, applyWrites_cons, applyWrites_of_not_mem later,
        applyWrites_of_not_mem later, written, update_self, update_self]

/-- Two disks that agree outside the written addresses agree after the writes. -/
theorem applyWrites_congr {first second : Address → Block}
    (agree : address ∉ writes.map Prod.fst → first address = second address) :
    applyWrites first writes address = applyWrites second writes address := by
  by_cases written : address ∈ writes.map Prod.fst
  · exact applyWrites_of_mem written
  · rw [applyWrites_of_not_mem written, applyWrites_of_not_mem written, agree written]

/-- With distinct addresses every write is seen at the end. -/
theorem applyWrites_of_write (disk : Address → Block)
    (distinct : (writes.map Prod.fst).Nodup) {write : Address × Block} (member : write ∈ writes) :
    applyWrites disk writes write.1 = write.2 := by
  induction writes generalizing disk with
  | nil => cases member
  | cons first rest ih =>
    rw [List.map_cons, List.nodup_cons] at distinct
    rcases List.mem_cons.mp member with rfl | later
    · rw [applyWrites_cons, applyWrites_of_not_mem distinct.1, update_self]
    · exact ih (update disk first.1 first.2) distinct.2 later

/-! ## The log on the disk -/

/-- Where a redo log keeps its header and its slots, and how the header names
the home addresses. -/
structure Geometry (Address : Type u) (Block : Type v) where
  header : Address
  slot : Nat → Address
  decode : Block → List Address

namespace Geometry

variable (log : Geometry Address Block)

section

variable (disk : Address → Block)

/-- The home addresses recorded on the disk. -/
def homes : List Address :=
  log.decode (disk log.header)

/-- The writes that copy every slot to its home. -/
def replay : List (Address × Block) :=
  (log.homes disk).zipIdx.map fun home => (home.1, disk (log.slot home.2))

/-- What a complete recovery makes of the disk. -/
def logical : Address → Block :=
  applyWrites disk (log.replay disk)

end

/-- An address of the header or of one of the first `count` slots. -/
def InLog (count : Nat) (address : Address) : Prop :=
  address = log.header ∨ ∃ index, index < count ∧ address = log.slot index

variable (disk : Address → Block)

/-- No recorded home lies in the part of the log that is in use. -/
def Sane : Prop :=
  ∀ home ∈ log.homes disk, ¬ log.InLog (log.homes disk).length home

/-- The writes of a recovery that clears the header with the given block. -/
def recovery (cleared : Block) : List (Address × Block) :=
  log.replay disk ++ [(log.header, cleared)]

/-- A recovery is cut off after some of its writes. -/
def Interrupted (after : Address → Block) : Prop :=
  ∃ cleared writes, log.decode cleared = [] ∧ writes <+: log.recovery disk cleared ∧
    after = applyWrites disk writes

end Geometry

section

variable {log : Geometry Address Block} {disk : Address → Block}

omit [DecidableEq Address] in
@[simp] theorem replay_fst : (log.replay disk).map Prod.fst = log.homes disk := by
  simp [Geometry.replay, comp_def]

theorem logical_of_homes_nil (empty : log.homes disk = []) : log.logical disk = disk := by
  simp [Geometry.logical, Geometry.replay, empty]

omit [DecidableEq Address] in
/-- The addresses written by a part of the replay are homes. -/
theorem home_of_written (part : writes <+: log.replay disk) (written : address ∈ writes.map Prod.fst) :
    address ∈ log.homes disk := by
  rw [← replay_fst]
  exact (part.map Prod.fst).subset written

section

variable (sane : log.Sane disk) (part : writes <+: log.replay disk)
include sane part

/-- A part of the replay does not touch the log. -/
theorem inLog_unchanged (inLog : log.InLog (log.homes disk).length address) :
    applyWrites disk writes address = disk address :=
  applyWrites_of_not_mem fun written => sane address (home_of_written part written) inLog

/-- After a part of the replay, the replay is still the same. -/
theorem replay_interrupted :
    log.homes (applyWrites disk writes) = log.homes disk ∧
      log.replay (applyWrites disk writes) = log.replay disk := by
  have homes : log.homes (applyWrites disk writes) = log.homes disk := by
    rw [Geometry.homes, Geometry.homes, inLog_unchanged sane part (Or.inl rfl)]
  refine ⟨homes, ?_⟩
  unfold Geometry.replay
  rw [homes]
  apply List.map_congr_left
  rintro ⟨home, index⟩ member
  have inside : index < (log.homes disk).length := by
    have bound := List.mem_zipIdx member
    simpa using bound.2.1
  rw [inLog_unchanged sane part (Or.inr ⟨index, inside, rfl⟩)]

/-- Replaying again after a part of the replay gives the same disk. -/
theorem logical_interrupted : log.logical (applyWrites disk writes) = log.logical disk := by
  unfold Geometry.logical
  rw [(replay_interrupted sane part).2]
  funext address
  apply applyWrites_congr
  intro untouched
  rw [replay_fst] at untouched
  exact applyWrites_of_not_mem fun written => untouched (home_of_written part written)

end

/-- A complete recovery writes the header and installs the logical contents. -/
theorem recovery_complete (log : Geometry Address Block) (disk : Address → Block) (cleared : Block) :
    applyWrites disk (log.recovery disk cleared) log.header = cleared ∧
      ∀ address, address ≠ log.header →
        applyWrites disk (log.recovery disk cleared) address = log.logical disk address := by
  rw [Geometry.recovery, applyWrites_append, applyWrites_cons, applyWrites_nil]
  refine ⟨update_self _ _ _, fun address different => ?_⟩
  rw [update_of_ne different]
  rfl

/-- What an interrupted recovery keeps: the log is as it was or cleared, and
the logical contents outside the header stay. -/
structure Kept (log : Geometry Address Block) (disk after : Address → Block) : Prop where
  homes : log.homes after = log.homes disk ∨ log.homes after = []
  logical : ∀ address, address ≠ log.header → log.logical after address = log.logical disk address

theorem Kept.refl (log : Geometry Address Block) (disk : Address → Block) : Kept log disk disk :=
  ⟨Or.inl rfl, fun _ _ => rfl⟩

theorem Kept.trans {middle after : Address → Block} (first : Kept log disk middle)
    (second : Kept log middle after) : Kept log disk after := by
  refine ⟨?_, fun address different =>
    (second.logical address different).trans (first.logical address different)⟩
  rcases second.homes with same | empty
  · rw [same]
    exact first.homes
  · exact Or.inr empty

theorem Kept.sane {after : Address → Block} (kept : Kept log disk after) (sane : log.Sane disk) :
    log.Sane after := by
  intro home member
  rcases kept.homes with same | empty
  · rw [same] at member ⊢
    exact sane home member
  · rw [empty] at member
    cases member

theorem kept_of_interrupted {after : Address → Block} (sane : log.Sane disk)
    (interrupted : log.Interrupted disk after) : Kept log disk after := by
  rcases interrupted with ⟨cleared, writes, empty, part, rfl⟩
  rcases List.prefix_concat_iff.mp part with whole | cut
  · have complete := recovery_complete log disk cleared
    rw [show writes = log.recovery disk cleared from whole]
    have homes : log.homes (applyWrites disk (log.recovery disk cleared)) = [] := by
      rw [Geometry.homes, complete.1, empty]
    refine ⟨Or.inr homes, fun address different => ?_⟩
    rw [logical_of_homes_nil homes]
    exact complete.2 address different
  · refine ⟨Or.inl (replay_interrupted sane cut).1, fun address _ => ?_⟩
    rw [logical_interrupted sane cut]

end

/-! ## A committing transaction -/

section

variable {log : Geometry Address Block} {disk : Address → Block}

section

variable (log : Geometry Address Block) (updates : List (Address × Block))

/-- The writes that fill the slots. -/
def copies : List (Address × Block) :=
  updates.zipIdx.map fun update => (log.slot update.2, update.1.2)

/-- The writes of a transaction: the new blocks go to the slots, the header is
written, the blocks go to their homes, and the header is cleared. -/
def commitWrites (header cleared : Block) : List (Address × Block) :=
  (copies log updates ++ [(log.header, header)]) ++ (updates ++ [(log.header, cleared)])

end

/-- The slots are distinct blocks, the header is none of them, and no update
is for a block of the log. -/
structure Fits (log : Geometry Address Block) (updates : List (Address × Block)) : Prop where
  slots : ∀ first second, first < updates.length → second < updates.length →
    log.slot first = log.slot second → first = second
  header : ∀ index, index < updates.length → log.slot index ≠ log.header
  outside : ∀ update ∈ updates, ¬ log.InLog updates.length update.1

variable {updates : List (Address × Block)}

omit [DecidableEq Address] in
theorem copies_fst : (copies log updates).map Prod.fst = (List.range updates.length).map log.slot :=
  List.ext_getElem (by simp [copies]) (by simp [copies])

omit [DecidableEq Address] in
theorem copies_distinct (fits : Fits log updates) : ((copies log updates).map Prod.fst).Nodup := by
  rw [copies_fst]
  refine List.Nodup.map_on ?_ List.nodup_range
  intro first firstInside second secondInside same
  exact fits.slots first second (List.mem_range.mp firstInside) (List.mem_range.mp secondInside) same

/-- Filling slots changes only the slots. -/
theorem copies_interrupted (part : writes <+: copies log updates)
    (outside : ∀ index, index < updates.length → address ≠ log.slot index) :
    applyWrites disk writes address = disk address := by
  refine applyWrites_of_not_mem fun written => ?_
  have slot := (part.map Prod.fst).subset written
  rw [copies_fst] at slot
  rcases List.mem_map.mp slot with ⟨index, inside, same⟩
  exact outside index (List.mem_range.mp inside) same.symm

/-- With the slots filled and the header written, a recovery performs the rest
of the transaction. -/
theorem recovery_committed (disk : Address → Block) (fits : Fits log updates) {header : Block}
    (decoded : log.decode header = updates.map Prod.fst) (cleared : Block) :
    log.recovery (applyWrites disk (copies log updates ++ [(log.header, header)])) cleared =
      updates ++ [(log.header, cleared)] := by
  rw [applyWrites_append, applyWrites_cons, applyWrites_nil]
  unfold Geometry.recovery Geometry.replay Geometry.homes
  rw [update_self, decoded]
  congr 1
  refine List.ext_getElem (by simp) fun index inside within => ?_
  simp only [List.getElem_map, List.getElem_zipIdx, Nat.zero_add]
  have slot : (log.slot index, updates[index].2) ∈ copies log updates :=
    List.mem_map.mpr ⟨(updates[index], index), by simp [List.mem_zipIdx_iff_getElem?], rfl⟩
  have filled := applyWrites_of_write disk (copies_distinct fits) slot
  rw [update_of_ne (fits.header index within), filled]

/-- Before the header is written the log is still empty. -/
theorem commit_before_header (fits : Fits log updates) (old : log.homes disk = [])
    (part : writes <+: copies log updates) :
    log.homes (applyWrites disk writes) = [] ∧
      ∀ address, ¬ log.InLog updates.length address →
        log.logical (applyWrites disk writes) address = disk address := by
  have homes : log.homes (applyWrites disk writes) = [] := by
    rw [Geometry.homes, copies_interrupted part fun index inside => (fits.header index inside).symm]
    exact old
  refine ⟨homes, fun address outside => ?_⟩
  rw [logical_of_homes_nil homes]
  exact copies_interrupted part fun index inside same => outside (Or.inr ⟨index, inside, same⟩)

/-- Once the header is written, the log holds the whole transaction. -/
theorem commit_after_header (disk : Address → Block) (fits : Fits log updates) {header cleared : Block}
    (decoded : log.decode header = updates.map Prod.fst) (empty : log.decode cleared = [])
    {rest : List (Address × Block)} (part : rest <+: updates ++ [(log.header, cleared)]) :
    Kept log (applyWrites disk (copies log updates ++ [(log.header, header)]))
        (applyWrites (applyWrites disk (copies log updates ++ [(log.header, header)])) rest) ∧
      log.Sane (applyWrites disk (copies log updates ++ [(log.header, header)])) ∧
      log.homes (applyWrites disk (copies log updates ++ [(log.header, header)])) =
        updates.map Prod.fst ∧
      ∀ address, ¬ log.InLog updates.length address →
        log.logical (applyWrites disk (copies log updates ++ [(log.header, header)])) address =
          applyWrites disk updates address := by
  have recovery := recovery_committed disk fits decoded cleared
  generalize committed : applyWrites disk (copies log updates ++ [(log.header, header)]) = after at *
  have homes : log.homes after = updates.map Prod.fst := by
    rw [← committed, applyWrites_append, applyWrites_cons, Geometry.homes, applyWrites_nil,
      update_self, decoded]
  have replay : log.replay after = updates := List.append_cancel_right recovery
  have sane : log.Sane after := by
    intro home member
    rw [homes, List.length_map]
    rw [homes] at member
    rcases List.mem_map.mp member with ⟨update, inside, rfl⟩
    exact fits.outside update inside
  refine ⟨kept_of_interrupted sane ⟨cleared, rest, empty, by rw [recovery]; exact part, rfl⟩,
    sane, homes, fun address outside => ?_⟩
  rw [Geometry.logical, replay]
  apply applyWrites_congr
  intro _
  rw [← committed, applyWrites_append, applyWrites_cons, applyWrites_nil,
    update_of_ne fun same => outside (Or.inl same)]
  exact copies_interrupted (List.prefix_refl _) fun index inside same =>
    outside (Or.inr ⟨index, inside, same⟩)

omit [DecidableEq Address] in
/-- The header is among the writes of a transaction that was cut off exactly
when more writes than those to the slots were made. -/
theorem header_mem_iff (fits : Fits log updates) {header cleared : Block}
    (part : writes <+: commitWrites log updates header cleared) :
    log.header ∈ writes.map Prod.fst ↔ updates.length < writes.length := by
  have counted : (copies log updates).length = updates.length := by simp [copies]
  constructor
  · intro written
    by_contra short
    have slots : writes <+: copies log updates :=
      List.prefix_of_prefix_length_le part
        ((List.prefix_append _ _).trans (List.prefix_append _ _)) (by omega)
    have slot := (slots.map Prod.fst).subset written
    rw [copies_fst] at slot
    rcases List.mem_map.mp slot with ⟨index, inside, same⟩
    exact fits.header index (List.mem_range.mp inside) same
  · intro committed
    have whole : copies log updates ++ [(log.header, header)] <+: writes :=
      List.prefix_of_prefix_length_le (List.prefix_append _ _) part (by simp [counted]; omega)
    exact (whole.map Prod.fst).subset (by simp)

/-- The state of the disk when a transaction is cut off after some of its
writes: until the header is written the logical contents are the old ones, and
from then on they are the new ones. -/
theorem commit_interrupted (fits : Fits log updates) {header cleared : Block}
    (decoded : log.decode header = updates.map Prod.fst) (empty : log.decode cleared = [])
    (old : log.homes disk = [])
    (part : writes <+: commitWrites log updates header cleared) :
    log.Sane (applyWrites disk writes) ∧
      (log.homes (applyWrites disk writes) = updates.map Prod.fst ∨
        log.homes (applyWrites disk writes) = []) ∧
      ∀ address, ¬ log.InLog updates.length address →
        log.logical (applyWrites disk writes) address =
          if log.header ∈ writes.map Prod.fst then applyWrites disk updates address
          else disk address := by
  have counted : (copies log updates).length = updates.length := by simp [copies]
  simp only [header_mem_iff fits part]
  by_cases committed : updates.length < writes.length
  · have header : copies log updates ++ [(log.header, header)] <+: writes :=
      List.prefix_of_prefix_length_le (List.prefix_append _ _) part (by simp [counted]; omega)
    rcases header with ⟨rest, rfl⟩
    have after := commit_after_header disk fits decoded empty
      ((List.prefix_append_right_inj _).mp part)
    rw [applyWrites_append]
    rcases after with ⟨kept, sane, homes, logical⟩
    refine ⟨kept.sane sane, by rw [← homes]; exact kept.homes, fun address outside => ?_⟩
    rw [if_pos committed, kept.logical address fun same => outside (Or.inl same),
      logical address outside]
  · have slots : writes <+: copies log updates :=
      List.prefix_of_prefix_length_le part
        ((List.prefix_append _ _).trans (List.prefix_append _ _)) (by omega)
    rcases commit_before_header fits old slots with ⟨homes, logical⟩
    refine ⟨fun home member => ?_, Or.inr homes, fun address outside => ?_⟩
    · rw [homes] at member
      cases member
    · rw [if_neg committed, logical address outside]

end

end RedoLog

end Foundation
end Xv6
