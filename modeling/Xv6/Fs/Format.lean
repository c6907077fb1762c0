import Xv6.Buffer.Cache

namespace Xv6
namespace Fs

open Foundation
open Buffer (Block)

/-!
# What the blocks of the file system hold

The three records that the kernel keeps inside blocks: a bit of the free map,
an on-disk inode, and a directory entry.  Each has the operations of
`kernel/fs.c` on a block and the rules that say what a read finds after a
write, in the same place and in any other.
-/

/-! ## The free map -/

/-- `1 << (bi % 8)`. -/
def bitMask (bi : Nat) : UInt8 :=
  UInt8.ofNat (1 <<< (bi % 8))

/-- Is the bit set? -/
def bitSet (block : Block) (bi : Nat) : Bool :=
  block.get (bi / 8) &&& bitMask bi ≠ 0

/-- `bp->data[bi/8] |= m`. -/
def markBit (bi : Nat) (block : Block) : Block :=
  block.splice (bi / 8) 1 fun _ => block.get (bi / 8) ||| bitMask bi

/-- `bp->data[bi/8] &= ~m`. -/
def clearBit (bi : Nat) (block : Block) : Block :=
  block.splice (bi / 8) 1 fun _ => block.get (bi / 8) &&& ~~~ bitMask bi

theorem getLsbD_bitMask (bi position : Nat) :
    (bitMask bi).toBitVec.getLsbD position = decide (position = bi % 8) := by
  have small : bi % 8 < 8 := Nat.mod_lt _ (by decide)
  show (BitVec.ofNat 8 (1 <<< (bi % 8))).getLsbD position = _
  rw [BitVec.getLsbD_ofNat, Nat.one_shiftLeft, Nat.testBit_two_pow, ← Bool.decide_and]
  exact decide_eq_decide.mpr ⟨fun both => both.2.symm, fun same => ⟨same ▸ small, same.symm⟩⟩

theorem bitSet_eq_getLsbD (block : Block) (bi : Nat) :
    bitSet block bi = (block.get (bi / 8)).toBitVec.getLsbD (bi % 8) := by
  have zero_iff : block.get (bi / 8) &&& bitMask bi = 0 ↔
      (block.get (bi / 8)).toBitVec.getLsbD (bi % 8) = false := by
    rw [← UInt8.toBitVec_inj, UInt8.toBitVec_and]
    constructor
    · intro zero
      have bit := congrArg (fun word => BitVec.getLsbD word (bi % 8)) zero
      simpa [getLsbD_bitMask] using bit
    · intro clear
      apply BitVec.eq_of_getLsbD_eq
      intro position _
      rw [BitVec.getLsbD_and, getLsbD_bitMask]
      by_cases same : position = bi % 8
      · simp [same, clear]
      · simp [same]
  rw [bitSet, Bool.eq_iff_iff, decide_eq_true_iff, ne_eq, zero_iff, Bool.not_eq_false]

variable {block : Block} {bi other slot : Nat}

theorem bitSet_splice {byte : UInt8} {value : Bool} (inside : other < BPB)
    (changed : ∀ position, position < 8 → byte.toBitVec.getLsbD position =
      if position = bi % 8 then value else (block.get (bi / 8)).toBitVec.getLsbD position) :
    bitSet (block.splice (bi / 8) 1 fun _ => byte) other =
      if other = bi then value else bitSet block other := by
  have inBlock : other / 8 < BSIZE := Nat.div_lt_of_lt_mul (by rwa [BPB, Nat.mul_comm] at inside)
  rw [bitSet_eq_getLsbD, bitSet_eq_getLsbD, Bytes.get_splice block _ _ _ inBlock]
  by_cases sameByte : other / 8 = bi / 8
  · rw [if_pos (by omega), changed _ (Nat.mod_lt _ (by decide)), sameByte]
    by_cases sameBit : other = bi
    · rw [if_pos (by rw [sameBit]), if_pos sameBit]
    · rw [if_neg (by omega), if_neg sameBit]
  · rw [if_neg (by omega), if_neg (by rintro rfl; exact sameByte rfl)]

theorem bitSet_markBit (block : Block) (inside : other < BPB) :
    bitSet (markBit bi block) other = if other = bi then true else bitSet block other := by
  apply bitSet_splice inside
  intro position _
  rw [UInt8.toBitVec_or, BitVec.getLsbD_or, getLsbD_bitMask]
  by_cases same : position = bi % 8 <;> simp [same]

theorem bitSet_clearBit (block : Block) (inside : other < BPB) :
    bitSet (clearBit bi block) other = if other = bi then false else bitSet block other := by
  apply bitSet_splice inside
  intro position small
  rw [UInt8.toBitVec_and, UInt8.toBitVec_not, BitVec.getLsbD_and, BitVec.getLsbD_not,
    getLsbD_bitMask]
  by_cases same : position = bi % 8
  · simp [same]
  · simp [same, small]

/-! ## On-disk inodes -/

/-- `T_DIR`. -/
def T_DIR : BitVec 16 := 1

theorem ne_zero_of_isDir {type : BitVec 16} (isDir : type = T_DIR) : type ≠ 0 := by
  rw [isDir]
  decide

/-- `T_FILE`. -/
def T_FILE : BitVec 16 := 2

/-- `T_DEVICE`. -/
def T_DEVICE : BitVec 16 := 3

instance (priority := 2000) neZeroSlots : NeZero (NDIRECT + 1) := ⟨by decide⟩

/-- `struct dinode`, which is also the part of `struct inode` that lives on the
disk. -/
@[ext] structure Dinode where
  type : BitVec 16
  major : BitVec 16
  minor : BitVec 16
  nlink : BitVec 16
  size : BitVec 32
  addrs : Fin (NDIRECT + 1) → BitVec 32

namespace Dinode

/-- An inode with only its type set, as `ialloc` writes it. -/
def fresh (type : BitVec 16) : Dinode where
  type := type
  major := 0
  minor := 0
  nlink := 0
  size := 0
  addrs := fun _ => 0

/-- The inode in a slot of an inode block. -/
def decode (block : Block) (slot : Nat) : Dinode where
  type := BitVec.ofNat 16 (block.getLE (64 * slot) 2)
  major := BitVec.ofNat 16 (block.getLE (64 * slot + 2) 2)
  minor := BitVec.ofNat 16 (block.getLE (64 * slot + 4) 2)
  nlink := BitVec.ofNat 16 (block.getLE (64 * slot + 6) 2)
  size := BitVec.ofNat 32 (block.getLE (64 * slot + 8) 4)
  addrs := fun index => BitVec.ofNat 32 (block.getLE (64 * slot + 12 + 4 * index.val) 4)

/-- The assignments of `iupdate`, the last of which copies all addresses. -/
def encode (dinode : Dinode) (slot : Nat) (block : Block) : Block :=
  let block := block.setLE (64 * slot) 2 dinode.type.toNat
  let block := block.setLE (64 * slot + 2) 2 dinode.major.toNat
  let block := block.setLE (64 * slot + 4) 2 dinode.minor.toNat
  let block := block.setLE (64 * slot + 6) 2 dinode.nlink.toNat
  let block := block.setLE (64 * slot + 8) 4 dinode.size.toNat
  block.splice (64 * slot + 12) (4 * (NDIRECT + 1)) fun position =>
    Bytes.toLE (dinode.addrs (Fin.ofNat _ (position / 4))).toNat (position % 4)

/-- The assignments of `ialloc`: `memset` and then the type. -/
def clear (type : BitVec 16) (slot : Nat) (block : Block) : Block :=
  (block.splice (64 * slot) 64 fun _ => 0).setLE (64 * slot) 2 type.toNat

theorem decode_congr {first second : Block}
    (agree : ∀ position, 64 * slot ≤ position → position < 64 * slot + 64 →
      first.get position = second.get position) : decode first slot = decode second slot := by
  have field : ∀ offset width, offset + width ≤ 64 →
      first.getLE (64 * slot + offset) width = second.getLE (64 * slot + offset) width := by
    intro offset width fits
    exact Bytes.fromLE_congr fun position inside => agree _ (by omega) (by omega)
  refine Dinode.ext ?_ ?_ ?_ ?_ ?_ (funext fun index => ?_)
  · exact congrArg (BitVec.ofNat 16) (field 0 2 (by decide))
  · exact congrArg (BitVec.ofNat 16) (field 2 2 (by decide))
  · exact congrArg (BitVec.ofNat 16) (field 4 2 (by decide))
  · exact congrArg (BitVec.ofNat 16) (field 6 2 (by decide))
  · exact congrArg (BitVec.ofNat 32) (field 8 4 (by decide))
  · have bound := index.isLt
    have last : NDIRECT + 1 = 13 := rfl
    have word := field (12 + 4 * index.val) 4 (by omega)
    rw [← Nat.add_assoc] at word
    exact congrArg (BitVec.ofNat 32) word

theorem get_encode_outside (dinode : Dinode) (slot : Nat) (block : Block) {position : Nat}
    (outside : position < 64 * slot ∨ 64 * slot + 64 ≤ position) :
    (dinode.encode slot block).get position = block.get position := by
  have last : 4 * (NDIRECT + 1) = 52 := rfl
  simp only [encode, Bytes.setLE]
  rw [Bytes.get_splice_outside, Bytes.get_splice_outside, Bytes.get_splice_outside,
    Bytes.get_splice_outside, Bytes.get_splice_outside, Bytes.get_splice_outside] <;> omega

theorem decode_encode_of_ne (dinode : Dinode) (different : other ≠ slot)
    (block : Block) : decode (dinode.encode slot block) other = decode block other :=
  decode_congr fun _ _ _ => get_encode_outside dinode slot block (by omega)

theorem ofNat_field {offset bytes bits : Nat} {value : BitVec bits}
    (sameWidth : 256 ^ bytes = 2 ^ bits)
    (field : block.getLE offset bytes = value.toNat % 256 ^ bytes) :
    BitVec.ofNat bits (block.getLE offset bytes) = value := by
  rw [field, sameWidth, Nat.mod_eq_of_lt value.isLt, BitVec.ofNat_toNat, BitVec.setWidth_eq]

theorem decode_encode (dinode : Dinode) (inside : slot < IPB) (block : Block) :
    decode (dinode.encode slot block) slot = dinode := by
  have room : 64 * slot + 64 ≤ BSIZE := by
    have slots : slot < 16 := inside
    have size : BSIZE = 1024 := rfl
    omega
  have last : 4 * (NDIRECT + 1) = 52 := rfl
  refine Dinode.ext ?_ ?_ ?_ ?_ ?_ (funext fun index => ?_)
  · refine ofNat_field (by decide) ?_
    rw [encode, Bytes.getLE_splice_outside _ _ (by omega)]
    simp (disch := omega) only [Bytes.getLE_setLE_outside, Bytes.getLE_setLE]
  · refine ofNat_field (by decide) ?_
    rw [encode, Bytes.getLE_splice_outside _ _ (by omega)]
    simp (disch := omega) only [Bytes.getLE_setLE_outside, Bytes.getLE_setLE]
  · refine ofNat_field (by decide) ?_
    rw [encode, Bytes.getLE_splice_outside _ _ (by omega)]
    simp (disch := omega) only [Bytes.getLE_setLE_outside, Bytes.getLE_setLE]
  · refine ofNat_field (by decide) ?_
    rw [encode, Bytes.getLE_splice_outside _ _ (by omega)]
    simp (disch := omega) only [Bytes.getLE_setLE_outside, Bytes.getLE_setLE]
  · refine ofNat_field (by decide) ?_
    rw [encode, Bytes.getLE_splice_outside _ _ (by omega), Bytes.getLE_setLE _ _ (by omega)]
  · refine ofNat_field (by decide) ?_
    rw [encode, Bytes.getLE_splice_table _ (fun position => (dinode.addrs (Fin.ofNat _ position)).toNat)
      index.isLt (by omega), Fin.ofNat_val_eq_self]

theorem decode_clear_of_ne (type : BitVec 16) (different : other ≠ slot)
    (block : Block) : decode (clear type slot block) other = decode block other := by
  apply decode_congr
  intro position _ _
  rw [clear, Bytes.setLE, Bytes.get_splice_outside _ _ (by omega),
    Bytes.get_splice_outside _ _ (by omega)]

theorem decode_clear (type : BitVec 16) (inside : slot < IPB) (block : Block) :
    decode (clear type slot block) slot = fresh type := by
  have room : 64 * slot + 64 ≤ BSIZE := by
    have slots : slot < 16 := inside
    have size : BSIZE = 1024 := rfl
    omega
  have zero : ∀ offset width, 64 * slot + 2 ≤ offset → offset + width ≤ 64 * slot + 64 →
      (clear type slot block).getLE offset width = 0 := by
    intro offset width behind fits
    have bytes : ∀ position, position < width →
        (clear type slot block).get (offset + position) = Bytes.toLE 0 position := by
      intro position within
      rw [clear, Bytes.setLE, Bytes.get_splice_outside _ _ (by omega),
        Bytes.get_splice _ _ _ _ (by omega), if_pos (by omega)]
      simp [Bytes.toLE]
    rw [Bytes.getLE, Bytes.fromLE_congr bytes, Bytes.fromLE_toLE, Nat.zero_mod]
  refine Dinode.ext ?_ ?_ ?_ ?_ ?_ (funext fun index => ?_)
  · exact ofNat_field (by decide) (Bytes.getLE_setLE _ _ (by omega))
  · exact congrArg (BitVec.ofNat 16) (zero _ 2 (by omega) (by omega))
  · exact congrArg (BitVec.ofNat 16) (zero _ 2 (by omega) (by omega))
  · exact congrArg (BitVec.ofNat 16) (zero _ 2 (by omega) (by omega))
  · exact congrArg (BitVec.ofNat 32) (zero _ 4 (by omega) (by omega))
  · have bound : index.val < 13 := index.isLt
    exact congrArg (BitVec.ofNat 32) (zero _ 4 (by omega) (by omega))

end Dinode

/-! ## Directory entries -/

/-- A name in an entry or a path: its bytes up to the terminating zero, or all
`DIRSIZ` of them.  `namecmp` compares names, which is equality here. -/
abbrev Name := List UInt8

/-- `struct dirent`. -/
structure Dirent where
  inum : Nat
  name : Name
deriving DecidableEq, Repr

namespace Dirent

/-- The entry with all bytes zero. -/
def empty : Dirent := ⟨0, []⟩

/-- The entry that `readi` has copied into `de`. -/
def decode (bytes : Nat → UInt8) : Dirent where
  inum := Bytes.fromLE 2 bytes
  name := ((List.range DIRSIZ).map fun position => bytes (2 + position)).takeWhile (· ≠ 0)

/-- The bytes of an entry; `strncpy` fills the rest of the name with zeros. -/
def bytes (entry : Dirent) (position : Nat) : UInt8 :=
  if position < 2 then Bytes.toLE entry.inum position else entry.name.getD (position - 2) 0

end Dirent

end Fs
end Xv6
