import Xv6.Fs.Calls
import Xv6.Fs.Content

namespace Xv6
namespace Fs

open Foundation
open Buffer (Block)

/-!
# Checking an image

Ownership and the absence of holes speak about all blocks and all inodes.  On
the volume of a store only finitely many of them matter, those in the ranges
of the super block, so both can be decided by listing the places that hold a
block.  A small image with a root directory and two directories below it
serves as the example.
-/

/-! ## Listing the holdings -/

variable {ninodes b : Nat} {place : Place}

namespace Volume

/-- The places of the inodes below a number. -/
def places (ninodes : Nat) : List Place :=
  (List.range ninodes).flatMap fun inum =>
    (inum, none) :: (List.range MAXFILE).map fun bn => (inum, some bn)

/-- The places that hold a block, with the block. -/
def holdings (volume : Volume) (ninodes : Nat) : List (Place × Nat) :=
  (places ninodes).filterMap fun place => (volume.held place).map fun b => (place, b)

theorem mem_places {inum : Nat} {index : Option Nat} :
    (inum, index) ∈ places ninodes ↔ inum < ninodes ∧ ∀ bn, index = some bn → bn < MAXFILE := by
  simp only [places, List.mem_flatMap, List.mem_range, List.mem_cons, Prod.mk.injEq, List.mem_map]
  constructor
  · rintro ⟨other, inside, ⟨rfl, rfl⟩ | ⟨bn, below, rfl, rfl⟩⟩
    · exact ⟨inside, fun bn never => by cases never⟩
    · exact ⟨inside, fun bn' same => by cases same; exact below⟩
  · rintro ⟨inside, below⟩
    cases index with
    | none => exact ⟨inum, inside, Or.inl ⟨rfl, rfl⟩⟩
    | some bn => exact ⟨inum, inside, Or.inr ⟨bn, below bn rfl, rfl, rfl⟩⟩

theorem mem_holdings {volume : Volume} :
    (place, b) ∈ volume.holdings ninodes ↔ place ∈ places ninodes ∧ volume.held place = some b := by
  simp only [holdings, List.mem_filterMap, Option.map_eq_some_iff, Prod.mk.injEq]
  constructor
  · rintro ⟨other, member, b', holds, rfl, rfl⟩
    exact ⟨member, holds⟩
  · rintro ⟨member, holds⟩
    exact ⟨place, member, b, holds, rfl, rfl⟩

end Volume

theorem Store.mem_places_of_held {store : Store}
    (holds : store.volume.held place = some b) : place ∈ Volume.places store.sb.ninodes := by
  rcases place with ⟨inum, index⟩
  rw [Volume.held_eq_some] at holds
  have nonzero : store.volume.blockAt (inum, index) ≠ 0 := by
    rw [holds.1]
    exact holds.2
  rw [Volume.mem_places]
  constructor
  · refine Nat.lt_of_not_le fun beyond => nonzero ?_
    have isFresh : store.volume.dinodes inum = Dinode.fresh 0 :=
      if_neg (Nat.not_lt_of_le beyond)
    have noIndirect : store.volume.indirect inum = 0 := by
      rw [Volume.indirect, isFresh]
      rfl
    cases index with
    | none => exact noIndirect
    | some bn =>
      rw [Volume.blockAt, Volume.address, noIndirect, store.volume_data_zero, Bytes.getLE_zero,
        isFresh]
      split
      · rfl
      · exact ite_self _
  · rintro bn rfl
    refine Nat.lt_of_not_le fun beyond => nonzero ?_
    have last : MAXFILE = NDIRECT + NINDIRECT := rfl
    rw [Volume.blockAt, Volume.address, if_neg (by omega), if_neg (by omega)]

/-- The finite part of ownership. -/
structure Store.OwnedInRange (store : Store) : Prop where
  distinct : ((store.volume.holdings store.sb.ninodes).map Prod.snd).Nodup
  inPool : ∀ holding ∈ store.volume.holdings store.sb.ninodes,
    store.sb.nmeta ≤ holding.2 ∧ holding.2 < store.sb.size
  marked : ∀ b, b < store.sb.size → (store.volume.used b = true ↔
    b < store.sb.nmeta ∨ b ∈ (store.volume.holdings store.sb.ninodes).map Prod.snd)
  typed : ∀ holding ∈ store.volume.holdings store.sb.ninodes,
    (store.volume.dinodes holding.1.1).type ≠ 0

instance (store : Store) : Decidable store.OwnedInRange :=
  decidable_of_iff (((store.volume.holdings store.sb.ninodes).map Prod.snd).Nodup ∧
    (∀ holding ∈ store.volume.holdings store.sb.ninodes,
      store.sb.nmeta ≤ holding.2 ∧ holding.2 < store.sb.size) ∧
    (∀ b, b < store.sb.size → (store.volume.used b = true ↔
      b < store.sb.nmeta ∨ b ∈ (store.volume.holdings store.sb.ninodes).map Prod.snd)) ∧
    ∀ holding ∈ store.volume.holdings store.sb.ninodes, (store.volume.dinodes holding.1.1).type ≠ 0)
    ⟨fun ⟨distinct, inPool, marked, typed⟩ => ⟨distinct, inPool, marked, typed⟩,
      fun check => ⟨check.distinct, check.inPool, check.marked, check.typed⟩⟩

theorem Store.OwnedInRange.owned {store : Store} (check : store.OwnedInRange)
    (layout : Layout store.sb) : Owned store.sb store.volume := by
  have listed : ∀ {place b}, store.volume.held place = some b →
      (place, b) ∈ store.volume.holdings store.sb.ninodes := fun holds =>
    Volume.mem_holdings.mpr ⟨Store.mem_places_of_held holds, holds⟩
  refine ⟨⟨?_, ?_, ?_⟩, ?_, ?_, store.volume_data_zero⟩
  · intro place b holds
    exact check.inPool _ (listed holds)
  · intro b inPool
    rw [check.marked b inPool.2]
    constructor
    · rintro (before | member)
      · exact absurd inPool.1 (Nat.not_le_of_lt before)
      · rcases List.mem_map.mp member with ⟨⟨place, other⟩, isListed, rfl⟩
        exact ⟨place, (Volume.mem_holdings.mp isListed).2⟩
    · rintro ⟨place, holds⟩
      exact Or.inr (List.mem_map.mpr ⟨(place, b), listed holds, rfl⟩)
  · intro first second b isFirst isSecond
    have same := List.inj_on_of_nodup_map check.distinct (listed isFirst) (listed isSecond) rfl
    exact congrArg Prod.fst same
  · intro b before
    exact (check.marked b (Nat.lt_of_lt_of_le before layout.fits)).mpr (Or.inl before)
  · intro inum isFree slot
    cases holds : store.volume.held (inum, slot) with
    | none => rfl
    | some b => exact absurd isFree (check.typed _ (listed holds))

instance (sb : Superblock) : Decidable (Layout sb) :=
  decidable_of_iff (sb.inodestart + (sb.ninodes / IPB + 1) ≤ sb.bmapstart ∧ sb.nmeta ≤ sb.size ∧
    sb.size < 2 ^ 32 ∧ sb.ninodes ≤ 2 ^ 16 ∧ ROOTINO < sb.ninodes)
    ⟨fun ⟨inodes, fits, small, numbers, root⟩ => ⟨inodes, fits, small, numbers, root⟩,
      fun layout => ⟨layout.inodes, layout.fits, layout.small, layout.numbers, layout.root⟩⟩

/-- Only blocks below the largest size can be missing. -/
instance (volume : Volume) (inum : Nat) : Decidable (HoleFree volume inum) :=
  decidable_of_iff ((volume.dinodes inum).size.toNat ≤ MAXFILE * BSIZE ∧
    ∀ bn, bn < MAXFILE → bn * BSIZE < (volume.dinodes inum).size.toNat → volume.address inum bn ≠ 0)
    ⟨fun ⟨bounded, mapped⟩ => ⟨bounded, fun bn below => mapped bn
        (Nat.lt_of_mul_lt_mul_right (Nat.lt_of_lt_of_le below bounded)) below⟩,
      fun holeFree => ⟨holeFree.bounded, fun bn _ below => holeFree.mapped bn below⟩⟩

/-! ## A small image -/

namespace Sample

/-- Sixty-seven blocks, of which thirty-four are metadata, and eight inodes. -/
def superblock : Superblock where
  size := 67
  nblocks := 33
  ninodes := 8
  nlog := LOGSIZE
  logstart := 2
  inodestart := 32
  bmapstart := 33

/-- A directory in one block. -/
def directory (nlink : BitVec 16) (entries b : Nat) : Dinode where
  type := T_DIR
  major := 0
  minor := 0
  nlink := nlink
  size := BitVec.ofNat 32 (direntSize * entries)
  addrs := fun slot => if slot = 0 then BitVec.ofNat 32 b else 0

def entries (list : List Dirent) : Block :=
  fun position => (list.getD (position.val / direntSize) Dirent.empty).bytes
    (position.val % direntSize)

/-- The root directory, `/a`, and `/a/b`. -/
def blocks (blockno : Nat) : Block :=
  match blockno with
  | 32 => (directory 2 3 34).encode 1 ((directory 2 3 35).encode 2
      ((directory 1 2 36).encode 3 Bytes.zero))
  | 33 => Bytes.zero.splice 0 5 fun position => if position < 4 then 255 else 31
  | 34 => entries [⟨1, dotName⟩, ⟨1, dotdotName⟩, ⟨2, [97]⟩]
  | 35 => entries [⟨2, dotName⟩, ⟨1, dotdotName⟩, ⟨3, [98]⟩]
  | 36 => entries [⟨3, dotName⟩, ⟨2, dotdotName⟩]
  | _ => Bytes.zero

/-- The store after the first process has its working directory. -/
def store : Store where
  sb := superblock
  blocks := blocks
  stale := fun _ => none
  logged := []
  inOp := false
  icache := fun ip =>
    { inum := if ip.val = 0 then ROOTINO else 0
      ref := if ip.val = 0 then 1 else 0
      locked := false
      valid := false
      dinode := Dinode.fresh 0 }
  lookups := []

theorem layout : Layout store.sb := by
  decide

theorem owned : Owned store.sb store.volume :=
  Store.OwnedInRange.owned (by decide +kernel) layout

theorem holeFree (inum : Nat) (typed : (store.volume.dinodes inum).type ≠ 0) :
    HoleFree store.volume inum := by
  have inRange : inum < store.sb.ninodes := by
    refine Nat.lt_of_not_le fun beyond => typed ?_
    rw [Store.volume]
    exact congrArg Dinode.type (if_neg (Nat.not_lt_of_le beyond))
  have checked : ∀ inum, inum < store.sb.ninodes → HoleFree store.volume inum := by
    decide +kernel
  exact checked inum inRange

/-- The first process has no open files, and there is no other process. -/
def system : System where
  store := store
  ftable := fun _ => ⟨.none, 0, false, false, 0, 0, 0, 0⟩
  pipes := fun _ => ⟨false, false, 0, 0⟩
  procs := fun pid => ⟨if pid = 0 then some 0 else none, fun _ => none, .idle⟩

/-- The store while the first process has the root directory locked. -/
def locked : Store :=
  { store with
    inOp := true
    icache := Function.update store.icache 0
      { inum := ROOTINO, ref := 1, locked := true, valid := true, dinode := directory 2 3 34 } }

theorem coherent : (locked.icache 0).dinode = locked.volume.dinodes (locked.icache 0).inum :=
  (Dinode.decode_encode (directory 2 3 34) (by decide) _).symm

end Sample

end Fs
end Xv6
