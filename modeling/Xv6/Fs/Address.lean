import Xv6.Foundation.Allocation
import Xv6.Fs.Volume

namespace Xv6
namespace Fs

open Foundation Function Volume
open Buffer (Block Stop)

/-!
# Which inode owns which block

An inode names its blocks in two ways: the address array has the first blocks
and the indirect block, and the indirect block has the others.  A place is an
inode number with the index of one of its blocks, or with no index for the
indirect block; a volume is owned if the places hold the used data blocks, each
block once.

`bmap` fills an empty place and `itrunc` empties places.  Filling a place with
a zeroed block does not change any byte of any file, since a missing block
reads as zeros too.
-/

/-- Block `bn` of an inode, or its indirect block. -/
abbrev Place := Nat × Option Nat

variable {volume first second before after : Volume} {place : Place} {b inum bn entry : Nat}
  {slot : Fin (NDIRECT + 1)} {value : BitVec 32}

namespace Volume

section

variable (volume : Volume)

/-- The address of the indirect block. -/
def indirect (inum : Nat) : Nat :=
  ((volume.dinodes inum).addrs indirectSlot).toNat

/-- The address of a block of an inode, or zero. -/
def address (inum bn : Nat) : Nat :=
  if bn < NDIRECT then ((volume.dinodes inum).addrs (Fin.ofNat _ bn)).toNat
  else if bn < MAXFILE then (volume.data (volume.indirect inum)).getLE (4 * (bn - NDIRECT)) 4
  else 0

/-- The block number in a place, or zero. -/
def blockAt : Place → Nat
  | (inum, none) => volume.indirect inum
  | (inum, some bn) => volume.address inum bn

/-- The block in a place. -/
def held (place : Place) : Option Nat :=
  if volume.blockAt place = 0 then none else some (volume.blockAt place)

/-- The byte at a position of an inode, also behind its size. -/
def byte (inum position : Nat) : UInt8 :=
  (volume.data (volume.address inum (position / BSIZE))).get (position % BSIZE)

end

theorem held_eq_some : volume.held place = some b ↔ volume.blockAt place = b ∧ b ≠ 0 := by
  unfold held
  split
  · rename_i zero
    simp only [reduceCtorEq, zero, false_iff, not_and, not_not]
    exact Eq.symm
  · rename_i nonzero
    constructor
    · rintro ⟨⟩
      exact ⟨rfl, nonzero⟩
    · rintro ⟨rfl, _⟩
      rfl

theorem held_eq_none : volume.held place = none ↔ volume.blockAt place = 0 := by
  unfold held
  split <;> simp [*]

theorem blockAt_eq (volume : Volume) (place : Place) :
    volume.blockAt place = (volume.held place).getD 0 := by
  unfold held
  split
  · assumption
  · rfl

theorem blockAt_congr (addrs : (second.dinodes inum).addrs = (first.dinodes inum).addrs)
    (data : second.data (first.indirect inum) = first.data (first.indirect inum))
    (index : Option Nat) : second.blockAt (inum, index) = first.blockAt (inum, index) := by
  have sameIndirect : second.indirect inum = first.indirect inum := by
    rw [indirect, addrs]
    rfl
  cases index with
  | none => exact sameIndirect
  | some bn => simp only [blockAt, address, addrs, sameIndirect, data]

theorem ofNat_val_of_lt (direct : bn < NDIRECT) : (Fin.ofNat (NDIRECT + 1) bn).val = bn := by
  rw [Fin.val_ofNat, Nat.mod_eq_of_lt (by omega)]

theorem ofNat_ne_indirectSlot (direct : bn < NDIRECT) :
    Fin.ofNat (NDIRECT + 1) bn ≠ indirectSlot := by
  intro isLast
  have values := congrArg Fin.val isLast
  rw [ofNat_val_of_lt direct] at values
  exact Nat.ne_of_lt direct values

theorem val_lt_of_ne_indirectSlot (direct : slot ≠ indirectSlot) : slot.val < NDIRECT := by
  have bound := slot.isLt
  have different : slot.val ≠ NDIRECT := fun same => direct (Fin.ext same)
  omega

theorem blockAt_of_direct (direct : slot ≠ indirectSlot)
    (addrs : (after.dinodes inum).addrs = update (before.dinodes inum).addrs slot value)
    (others : ∀ other, other ≠ inum → (after.dinodes other).addrs = (before.dinodes other).addrs)
    (data : ∀ other, after.data (before.indirect other) = before.data (before.indirect other))
    (place : Place) :
    after.blockAt place = if place = (inum, some slot.val) then value.toNat
      else before.blockAt place := by
  rcases place with ⟨other, index⟩
  by_cases same : other = inum
  · subst other
    have sameIndirect : after.indirect inum = before.indirect inum := by
      rw [indirect, addrs, update_of_ne (Ne.symm direct)]
      rfl
    cases index with
    | none => exact sameIndirect.trans (if_neg (by simp)).symm
    | some bn =>
      simp only [blockAt, address, sameIndirect, data inum]
      by_cases first : bn < NDIRECT
      · rw [if_pos first, if_pos first, addrs]
        by_cases isSlot : Fin.ofNat (NDIRECT + 1) bn = slot
        · subst isSlot
          rw [update_self, ofNat_val_of_lt first, if_pos rfl]
        · rw [update_of_ne isSlot, if_neg]
          simp only [Prod.mk.injEq, Option.some.injEq, true_and]
          intro sameIndex
          exact isSlot (Fin.ext ((ofNat_val_of_lt first).trans sameIndex))
      · have elsewhere : (inum, some bn) ≠ (inum, some slot.val) := by
          have bound := val_lt_of_ne_indirectSlot direct
          simp only [ne_eq, Prod.mk.injEq, Option.some.injEq, true_and]
          omega
        rw [if_neg first, if_neg first, if_neg elsewhere]
  · rw [if_neg (by simp [same])]
    exact blockAt_congr (others other same) (data other) index

theorem blockAt_of_indirect (addrs : (after.dinodes inum).addrs =
      update (before.dinodes inum).addrs indirectSlot value)
    (others : ∀ other, other ≠ inum → (after.dinodes other).addrs = (before.dinodes other).addrs)
    (data : ∀ other, other ≠ inum →
      after.data (before.indirect other) = before.data (before.indirect other))
    (blank : after.data value.toNat = Bytes.zero) (place : Place) :
    after.blockAt place = if place = (inum, none) then value.toNat
      else if place.1 = inum ∧ ∃ bn, place.2 = some bn ∧ NDIRECT ≤ bn then 0
      else before.blockAt place := by
  rcases place with ⟨other, index⟩
  by_cases same : other = inum
  · subst other
    have isValue : after.indirect inum = value.toNat := by
      rw [indirect, addrs, update_self]
    cases index with
    | none => exact isValue.trans (if_pos rfl).symm
    | some bn =>
      rw [if_neg (by simp)]
      simp only [blockAt, address, isValue, blank, Bytes.getLE_zero, Option.some.injEq,
        exists_eq_left', true_and]
      by_cases first : bn < NDIRECT
      · rw [if_pos first, if_pos first, if_neg (Nat.not_le_of_lt first), addrs,
          update_of_ne (ofNat_ne_indirectSlot first)]
      · rw [if_neg first, if_pos (Nat.le_of_not_lt first), ite_self]
  · rw [if_neg (by simp [same]), if_neg (by simp [same])]
    exact blockAt_congr (others other same) (data other same) index

theorem held_eq_update (nonzero : b ≠ 0)
    (changed : ∀ other, after.blockAt other = if other = place then b else before.blockAt other) :
    after.held = update before.held place (some b) := by
  funext other
  by_cases same : other = place
  · subst other
    rw [update_self, held_eq_some, changed, if_pos rfl]
    exact ⟨rfl, nonzero⟩
  · rw [update_of_ne same, held, held, changed, if_neg same]

theorem held_congr
    (same : first.blockAt place = second.blockAt place) : first.held place = second.held place := by
  rw [held, held, same]

end Volume

/-- The blocks that `balloc` may hand out. -/
def Pool (sb : Superblock) (b : Nat) : Prop :=
  sb.nmeta ≤ b ∧ b < sb.size

/-- The free map marks the metadata and the blocks that inodes hold.  Each
block is held in one place, and a free inode holds none. -/
structure Owned (sb : Superblock) (volume : Volume) : Prop where
  allocation : Allocation (Pool sb) volume.used volume.held
  metadata : ∀ b, b < sb.nmeta → volume.used b = true
  free : ∀ inum, (volume.dinodes inum).type = 0 → ∀ slot, volume.held (inum, slot) = none
  zero : volume.data 0 = Bytes.zero

theorem Store.volume_data_zero (store : Store) : store.volume.data 0 = Bytes.zero := by
  simp [Store.volume, Superblock.nmeta]

theorem pool_ne_zero {sb : Superblock} (inPool : Pool sb b) : b ≠ 0 := by
  have positive : 0 < sb.nmeta := Nat.lt_of_lt_of_le (Nat.succ_pos _) (Nat.le_add_left _ _)
  exact Nat.ne_of_gt (Nat.lt_of_lt_of_le positive inPool.1)

namespace Owned

variable {sb : Superblock}

theorem pool_of_unused (owned : Owned sb volume) (inside : b < sb.size)
    (unused : volume.used b = false) : Pool sb b := by
  refine ⟨Nat.le_of_not_lt fun before => ?_, inside⟩
  have marked := owned.metadata b before
  rw [unused] at marked
  cases marked

theorem held_of_ne_zero (nonzero : volume.blockAt place ≠ 0) :
    volume.held place = some (volume.blockAt place) :=
  held_eq_some.mpr ⟨rfl, nonzero⟩

variable (owned : Owned sb volume)
include owned

theorem pool_of_ne_zero (nonzero : volume.blockAt place ≠ 0) : Pool sb (volume.blockAt place) :=
  owned.allocation.inside place _ (held_of_ne_zero nonzero)

theorem pool_of_address
    (nonzero : volume.address inum bn ≠ 0) : Pool sb (volume.address inum bn) := by
  have present : volume.blockAt (inum, some bn) ≠ 0 := nonzero
  exact owned.pool_of_ne_zero present

theorem eq_of_blockAt {first second : Place}
    (nonzero : volume.blockAt first ≠ 0) (same : volume.blockAt first = volume.blockAt second) :
    first = second :=
  owned.allocation.single first second _ (held_of_ne_zero nonzero)
    (same ▸ held_of_ne_zero (same ▸ nonzero))

theorem ne_of_unused (unused : volume.used b = false)
    (inPool : Pool sb b) (place : Place) : volume.blockAt place ≠ b := by
  intro same
  exact owned.allocation.not_holds_of_unused unused place
    (held_eq_some.mpr ⟨same, pool_ne_zero inPool⟩)

end Owned

/-! ## Filling a place -/

/-- An empty place of an inode was filled with a new block of zeros. -/
structure Filled (sb : Superblock) (before after : Volume) (place : Place) (b : Nat) : Prop where
  empty : before.held place = none
  inPool : Pool sb b
  unused : before.used b = false
  typed : (before.dinodes place.1).type ≠ 0
  used : after.used = update before.used b true
  held : after.held = update before.held place (some b)
  types : ∀ inum, (after.dinodes inum).type = (before.dinodes inum).type
  new : after.data b = Bytes.zero
  zero : after.data 0 = before.data 0
  content : ∀ inum bn, before.address inum bn ≠ 0 →
    after.data (before.address inum bn) = before.data (before.address inum bn)

namespace Filled

variable {sb : Superblock} (filled : Filled sb before after place b)
include filled

theorem blockAt_self : after.blockAt place = b := by
  rw [blockAt_eq, filled.held, update_self]
  rfl

theorem blockAt_of_ne {other : Place}
    (different : other ≠ place) : after.blockAt other = before.blockAt other := by
  rw [blockAt_eq, filled.held, update_of_ne different, ← blockAt_eq]

theorem owned (isOwned : Owned sb before) : Owned sb after := by
  refine ⟨?_, ?_, ?_, filled.zero.trans isOwned.zero⟩
  · rw [filled.used, filled.held]
    exact isOwned.allocation.assign filled.empty filled.inPool filled.unused
  · intro other inMetadata
    have different : other ≠ b := by
      rintro rfl
      exact absurd filled.inPool.1 (Nat.not_le_of_lt inMetadata)
    rw [filled.used, update_of_ne different]
    exact isOwned.metadata other inMetadata
  · intro inum isFree slot
    have different : (inum, slot) ≠ place := by
      rintro rfl
      rw [filled.types] at isFree
      exact filled.typed isFree
    rw [filled.held, update_of_ne different]
    exact isOwned.free inum (by rw [← filled.types]; exact isFree) slot

/-- No byte of any file changes. -/
theorem byte (isOwned : Owned sb before) : after.byte = before.byte := by
  funext inum position
  unfold Volume.byte
  by_cases here : (inum, some (position / BSIZE)) = place
  · have isNew : after.address inum (position / BSIZE) = b := by
      have filledHere := filled.blockAt_self
      rw [← here] at filledHere
      exact filledHere
    have wasEmpty : before.address inum (position / BSIZE) = 0 := by
      have nothing := filled.empty
      rw [← here] at nothing
      exact held_eq_none.mp nothing
    rw [isNew, wasEmpty, filled.new, isOwned.zero]
  · have same : after.address inum (position / BSIZE) = before.address inum (position / BSIZE) :=
      filled.blockAt_of_ne here
    rw [same]
    by_cases missing : before.address inum (position / BSIZE) = 0
    · rw [missing, filled.zero]
    · rw [filled.content inum _ missing]

end Filled

namespace Volume

/-- The place that a slot of the address array names. -/
def slotPlace (inum : Nat) (slot : Fin (NDIRECT + 1)) : Place :=
  (inum, if slot = indirectSlot then none else some slot.val)

/-- A slot of an inode takes a new block. -/
def fillSlot (volume : Volume) (inum : Nat) (slot : Fin (NDIRECT + 1)) (b : Nat) : Volume where
  used := update volume.used b true
  dinodes := update volume.dinodes inum
    { volume.dinodes inum with
      addrs := update (volume.dinodes inum).addrs slot (BitVec.ofNat 32 b) }
  data := update volume.data b Bytes.zero

/-- An entry of the indirect block takes a new block. -/
def fillEntry (volume : Volume) (inum entry b : Nat) : Volume where
  used := update volume.used b true
  dinodes := volume.dinodes
  data := update (update volume.data b Bytes.zero) (volume.indirect inum)
    ((volume.data (volume.indirect inum)).setLE (4 * entry) 4 b)

end Volume

namespace Owned

variable {sb : Superblock} (owned : Owned sb volume) (small : sb.size < 2 ^ 32)
include owned small

theorem blockAt_fillSlot (missing : (volume.dinodes inum).addrs slot = 0)
    (inPool : Pool sb b) (unused : volume.used b = false) (place : Place) :
    (volume.fillSlot inum slot b).blockAt place =
      if place = Volume.slotPlace inum slot then b else volume.blockAt place := by
  have notB := owned.ne_of_unused unused inPool
  have exactly : (BitVec.ofNat 32 b).toNat = b := by
    rw [BitVec.toNat_ofNat, Nat.mod_eq_of_lt (Nat.lt_trans inPool.2 small)]
  have sameData : ∀ other, (volume.fillSlot inum slot b).data (volume.indirect other) =
      volume.data (volume.indirect other) := fun other => update_of_ne (notB (other, none)) _ _
  have addrs : ((volume.fillSlot inum slot b).dinodes inum).addrs =
      update (volume.dinodes inum).addrs slot (BitVec.ofNat 32 b) := by
    simp [Volume.fillSlot]
  have others : ∀ other, other ≠ inum →
      ((volume.fillSlot inum slot b).dinodes other).addrs = (volume.dinodes other).addrs := by
    intro other different
    simp [Volume.fillSlot, different]
  by_cases isLast : slot = indirectSlot
  · subst isLast
    have blank : (volume.fillSlot inum indirectSlot b).data (BitVec.ofNat 32 b).toNat = Bytes.zero := by
      rw [exactly]
      exact update_self _ _ _
    have wasZero : volume.indirect inum = 0 := by
      rw [Volume.indirect, missing]
      rfl
    rw [blockAt_of_indirect addrs others (fun other _ => sameData other) blank, exactly,
      Volume.slotPlace, if_pos rfl]
    split
    · rfl
    · split
      · rename_i wasEntry
        rcases place with ⟨other, index⟩
        rcases wasEntry with ⟨isInum, bn, isIndex, behind⟩
        dsimp only at isInum isIndex
        subst isInum isIndex
        simp only [Volume.blockAt, Volume.address, wasZero, owned.zero, Bytes.getLE_zero,
          if_neg (Nat.not_lt_of_le behind), ite_self]
      · rfl
  · rw [blockAt_of_direct isLast addrs others sameData, exactly, Volume.slotPlace, if_neg isLast]

theorem filled_fillSlot (typed : (volume.dinodes inum).type ≠ 0)
    (missing : (volume.dinodes inum).addrs slot = 0) (inPool : Pool sb b)
    (unused : volume.used b = false) :
    Filled sb volume (volume.fillSlot inum slot b) (Volume.slotPlace inum slot) b := by
  have blockAt := owned.blockAt_fillSlot small missing inPool unused
  have notB := owned.ne_of_unused unused inPool
  refine ⟨?_, inPool, unused, typed, rfl, held_eq_update (pool_ne_zero inPool) blockAt, ?_,
    update_self _ _ _, update_of_ne (pool_ne_zero inPool).symm _ _, ?_⟩
  · rw [held_eq_none, Volume.slotPlace]
    split
    · rename_i isLast
      show ((volume.dinodes inum).addrs indirectSlot).toNat = 0
      rw [← isLast, missing]
      rfl
    · rename_i notLast
      show volume.address inum slot.val = 0
      rw [Volume.address, if_pos (val_lt_of_ne_indirectSlot notLast),
        Fin.ofNat_val_eq_self, missing]
      rfl
  · intro other
    by_cases same : other = inum
    · subst other
      simp [Volume.fillSlot]
    · simp [Volume.fillSlot, same]
  · intro other bn _
    exact update_of_ne (notB (other, some bn)) _ _

theorem filled_fillEntry
    (typed : (volume.dinodes inum).type ≠ 0) (present : volume.indirect inum ≠ 0)
    (inside : entry < NINDIRECT) (missing : volume.address inum (NDIRECT + entry) = 0)
    (inPool : Pool sb b) (unused : volume.used b = false) :
    Filled sb volume (volume.fillEntry inum entry b) (inum, some (NDIRECT + entry)) b := by
  have notB := owned.ne_of_unused unused inPool
  have nonzero := pool_ne_zero inPool
  have sameData : ∀ place, place ≠ (inum, none) →
      (volume.fillEntry inum entry b).data (volume.blockAt place) =
        volume.data (volume.blockAt place) := by
    intro place elsewhere
    have different : volume.blockAt place ≠ volume.indirect inum := by
      intro same
      exact elsewhere (owned.eq_of_blockAt (same ▸ present) same)
    show update (update volume.data b Bytes.zero) _ _ _ = _
    rw [update_of_ne different, update_of_ne (notB place)]
  have blockAt : ∀ place, (volume.fillEntry inum entry b).blockAt place =
      if place = (inum, some (NDIRECT + entry)) then b else volume.blockAt place := by
    rintro ⟨other, index⟩
    by_cases same : other = inum
    · subst other
      cases index with
      | none => exact (if_neg (by simp)).symm
      | some bn =>
        have block : (volume.fillEntry inum entry b).data
            ((volume.fillEntry inum entry b).indirect inum) =
              (volume.data (volume.indirect inum)).setLE (4 * entry) 4 b :=
          update_self _ _ _
        have last : MAXFILE = NDIRECT + NINDIRECT := rfl
        have words : 4 * NINDIRECT = BSIZE := rfl
        simp only [Volume.blockAt, Volume.address]
        by_cases direct : bn < NDIRECT
        · rw [if_pos direct, if_pos direct, if_neg]
          · rfl
          · simp only [Prod.mk.injEq, Option.some.injEq, true_and]
            omega
        · rw [if_neg direct, if_neg direct, block]
          by_cases isEntry : bn = NDIRECT + entry
          · subst isEntry
            rw [if_pos (by omega), if_pos rfl, Nat.add_sub_cancel_left,
              Bytes.getLE_setLE _ _ (by omega), Nat.mod_eq_of_lt]
            exact Nat.lt_trans inPool.2 small
          · have elsewhere : (inum, some bn) ≠ (inum, some (NDIRECT + entry)) := by
              simp [isEntry]
            rw [if_neg elsewhere]
            split
            · rw [Bytes.getLE_setLE_outside _ _ (by omega)]
            · rfl
    · rw [if_neg (by simp [same])]
      have untouched : (volume.fillEntry inum entry b).data (volume.indirect other) =
          volume.data (volume.indirect other) := sameData (other, none) (by simp [same])
      refine blockAt_congr ?_ untouched index
      rfl
  have notIndirect : b ≠ volume.indirect inum := (notB (inum, none)).symm
  refine ⟨held_eq_none.mpr missing, inPool, unused, typed, rfl,
    held_eq_update nonzero blockAt, fun _ => rfl, ?_, ?_, ?_⟩
  · show update (update volume.data b Bytes.zero) _ _ b = _
    rw [update_of_ne notIndirect, update_self]
  · show update (update volume.data b Bytes.zero) _ _ 0 = _
    rw [update_of_ne (Ne.symm present), update_of_ne nonzero.symm]
  · intro other bn _
    exact sameData (other, some bn) (by simp)

end Owned

/-! ## Emptying places -/

variable {entries : List Nat} {holds : Place → Option Nat}

namespace Volume

theorem held_eq_update_none
    (changed : ∀ other, after.blockAt other = if other = place then 0 else before.blockAt other) :
    after.held = update before.held place none := by
  funext other
  by_cases same : other = place
  · subst other
    rw [update_self, held_eq_none, changed, if_pos rfl]
  · rw [update_of_ne same, held, held, changed, if_neg same]

/-- A slot of an inode gives up its block. -/
def clearSlot (volume : Volume) (inum : Nat) (slot : Fin (NDIRECT + 1)) : Volume where
  used := update volume.used ((volume.dinodes inum).addrs slot).toNat false
  dinodes := update volume.dinodes inum
    { volume.dinodes inum with addrs := update (volume.dinodes inum).addrs slot 0 }
  data := volume.data

/-- What the places hold after the entries of an indirect block are freed. -/
def dropEntries (inum : Nat) : List Nat → (Place → Option Nat) → Place → Option Nat
  | [], holds => holds
  | entry :: rest, holds =>
    dropEntries inum rest (update holds (inum, some (NDIRECT + entry)) none)

theorem dropEntries_of_not_mem (outside : ∀ entry ∈ entries, place ≠ (inum, some (NDIRECT + entry))) :
    dropEntries inum entries holds place = holds place := by
  induction entries generalizing holds with
  | nil => rfl
  | cons entry rest inductionHypothesis =>
    rw [dropEntries, inductionHypothesis fun other member => outside other (by simp [member]),
      update_of_ne (outside entry (by simp))]

theorem dropEntries_of_mem (member : entry ∈ entries) :
    dropEntries inum entries holds (inum, some (NDIRECT + entry)) = none := by
  induction entries generalizing holds with
  | nil => cases member
  | cons first rest inductionHypothesis =>
    rw [dropEntries]
    by_cases later : entry ∈ rest
    · exact inductionHypothesis later
    · have isFirst : entry = first := by
        rcases List.mem_cons.mp member with same | inRest
        · exact same
        · exact absurd inRest later
      subst isFirst
      rw [dropEntries_of_not_mem, update_self]
      intro other inRest same
      simp only [Prod.mk.injEq, Option.some.injEq, true_and, Nat.add_left_cancel_iff] at same
      exact later (same ▸ inRest)

theorem dropEntries_le (inum : Nat) (entries : List Nat) (holds : Place → Option Nat)
    (place : Place) :
    dropEntries inum entries holds place = none ∨
      dropEntries inum entries holds place = holds place := by
  by_cases dropped : ∃ entry ∈ entries, place = (inum, some (NDIRECT + entry))
  · rcases dropped with ⟨entry, member, rfl⟩
    exact Or.inl (dropEntries_of_mem member)
  · exact Or.inr (dropEntries_of_not_mem fun entry member same => dropped ⟨entry, member, same⟩)

theorem held_clearIndirect
    (addrs : (after.dinodes inum).addrs = update (before.dinodes inum).addrs indirectSlot 0)
    (others : ∀ other, other ≠ inum → (after.dinodes other).addrs = (before.dinodes other).addrs)
    (data : after.data = before.data) (zero : before.data 0 = Bytes.zero) :
    after.held = update
      (dropEntries inum (List.range NINDIRECT) before.held) (inum, none) none := by
  have changed := blockAt_of_indirect addrs others (fun other _ => by rw [data])
    (by rw [data]; exact zero)
  funext place
  by_cases isIndirect : place = (inum, none)
  · rw [isIndirect, update_self, held_eq_none, changed, if_pos rfl]
    rfl
  · rw [update_of_ne isIndirect]
    by_cases isEntry : place.1 = inum ∧ ∃ bn, place.2 = some bn ∧ NDIRECT ≤ bn
    · have nothing : after.held place = none := by
        rw [held_eq_none, changed, if_neg isIndirect, if_pos isEntry]
      rcases place with ⟨other, index⟩
      rcases isEntry with ⟨isInum, bn, isIndex, behind⟩
      dsimp only at isInum isIndex
      subst isInum isIndex
      rw [nothing]
      by_cases inside : bn - NDIRECT < NINDIRECT
      · have dropped : dropEntries other (List.range NINDIRECT) before.held
            (other, some (NDIRECT + (bn - NDIRECT))) = none :=
          dropEntries_of_mem (List.mem_range.mpr inside)
        rw [Nat.add_sub_cancel' behind] at dropped
        exact dropped.symm
      · rw [dropEntries_of_not_mem]
        · have last : MAXFILE = NDIRECT + NINDIRECT := rfl
          have missing : before.blockAt (other, some bn) = 0 := by
            rw [blockAt, address, if_neg (by omega), if_neg (by omega)]
          exact (held_eq_none.mpr missing).symm
        · intro entry member same
          have bound := List.mem_range.mp member
          simp only [Prod.mk.injEq, Option.some.injEq, true_and] at same
          omega
    · rw [dropEntries_of_not_mem]
      · exact held_congr (by rw [changed, if_neg isIndirect, if_neg isEntry])
      · rintro entry _ rfl
        exact isEntry ⟨rfl, _, rfl, Nat.le_add_right _ _⟩

end Volume

namespace Owned

variable {sb : Superblock} (owned : Owned sb volume)
include owned

theorem of_release (allocation : Allocation (Pool sb) after.used after.held)
    (metadata : ∀ b, b < sb.nmeta → after.used b = volume.used b)
    (types : ∀ other, (after.dinodes other).type = (volume.dinodes other).type)
    (fewer : ∀ place, after.held place = none ∨ after.held place = volume.held place)
    (data : after.data = volume.data) : Owned sb after := by
  refine ⟨allocation, ?_, ?_, data ▸ owned.zero⟩
  · intro b inMetadata
    rw [metadata b inMetadata]
    exact owned.metadata b inMetadata
  · intro other isFree slot
    rcases fewer (other, slot) with nothing | same
    · exact nothing
    · rw [same]
      exact owned.free other (by rw [← types]; exact isFree) slot

theorem clearSlot (direct : slot ≠ indirectSlot)
    (present : (volume.dinodes inum).addrs slot ≠ 0) : Owned sb (volume.clearSlot inum slot) := by
  have isBlock : volume.blockAt (inum, some slot.val) =
      ((volume.dinodes inum).addrs slot).toNat := by
    show volume.address inum slot.val = _
    rw [Volume.address, if_pos (val_lt_of_ne_indirectSlot direct), Fin.ofNat_val_eq_self]
  have holds : volume.held (inum, some slot.val) =
      some ((volume.dinodes inum).addrs slot).toNat := by
    rw [held_eq_some]
    exact ⟨isBlock, fun zero => present (BitVec.eq_of_toNat_eq zero)⟩
  have inPool := owned.allocation.inside _ _ holds
  have held : (volume.clearSlot inum slot).held =
      update volume.held (inum, some slot.val) none := by
    apply held_eq_update_none
    have addrs : ((volume.clearSlot inum slot).dinodes inum).addrs =
        update (volume.dinodes inum).addrs slot 0 := by
      simp [Volume.clearSlot]
    have others : ∀ other, other ≠ inum →
        ((volume.clearSlot inum slot).dinodes other).addrs = (volume.dinodes other).addrs := by
      intro other different
      simp [Volume.clearSlot, different]
    exact blockAt_of_direct direct addrs others fun _ => rfl
  refine owned.of_release ?_ ?_ ?_ ?_ rfl
  · rw [held]
    exact owned.allocation.release holds
  · intro b inMetadata
    have behind := inPool.1
    exact update_of_ne (by omega) _ _
  · intro other
    by_cases same : other = inum
    · subst other
      simp [Volume.clearSlot]
    · simp [Volume.clearSlot, same]
  · intro place
    rw [held]
    by_cases same : place = (inum, some slot.val)
    · rw [same, update_self]
      exact Or.inl rfl
    · rw [update_of_ne same]
      exact Or.inr rfl

theorem clearIndirect {used : Nat → Bool} (present : (volume.dinodes inum).addrs indirectSlot ≠ 0)
    (allocation : Allocation (Pool sb) used
      (Volume.dropEntries inum (List.range NINDIRECT) volume.held))
    (metadata : ∀ b, b < sb.nmeta → used b = volume.used b) :
    Owned sb (Volume.clearSlot { volume with used := used } inum indirectSlot) := by
  have indirectHeld : volume.held (inum, none) = some (volume.indirect inum) := by
    rw [held_eq_some]
    exact ⟨rfl, fun zero => present (BitVec.eq_of_toNat_eq zero)⟩
  have stillHeld : Volume.dropEntries inum (List.range NINDIRECT) volume.held (inum, none) =
      some (volume.indirect inum) := by
    rw [dropEntries_of_not_mem fun entry _ => by simp]
    exact indirectHeld
  have inPool := owned.allocation.inside _ _ indirectHeld
  have held : (Volume.clearSlot { volume with used := used } inum indirectSlot).held =
      update (Volume.dropEntries inum (List.range NINDIRECT) volume.held) (inum, none)
        none := by
    refine held_clearIndirect ?_ ?_ ?_ ?_
    · simp [Volume.clearSlot]
    · intro other different
      simp [Volume.clearSlot, different]
    · rfl
    · exact owned.zero
  refine owned.of_release ?_ ?_ ?_ ?_ rfl
  · rw [held]
    exact allocation.release stillHeld
  · intro b inMetadata
    have behind := inPool.1
    have different : b ≠ volume.indirect inum := by omega
    rw [← metadata b inMetadata]
    exact update_of_ne different _ _
  · intro other
    by_cases same : other = inum
    · subst other
      simp [Volume.clearSlot]
    · simp [Volume.clearSlot, same]
  · intro place
    rw [held]
    by_cases same : place = (inum, none)
    · rw [same, update_self]
      exact Or.inl rfl
    · rw [update_of_ne same]
      exact dropEntries_le inum (List.range NINDIRECT) volume.held place

end Owned

end Fs
end Xv6
