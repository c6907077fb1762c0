import Xv6.Fs.Inode

namespace Xv6

/-- The first block behind the metadata: the boot block, the super block, the
log, the inodes and the free map. -/
def Superblock.nmeta (sb : Superblock) : Nat :=
  sb.bmapstart + (sb.size / BPB + 1)

variable {inum b : Nat} {block : Block}

namespace Fs

open Foundation Function
open Buffer (Block Stop)

/-!
# The volume behind the blocks

The blocks hold three things in disjoint regions: the free map, the inodes and
the data.  A volume has them as three tables.  Every write of the block
allocator and of the inode layer changes the volume in one place, and this is
all that the layers above use about the encoding.

Outside of the ranges that the super block gives, the tables have default
values: an unused block, a free inode, a block of zeros.
-/

/-- The regions of the disk follow each other and fit, and numbers of blocks
and inodes fit the fields that hold them. -/
structure Layout (sb : Superblock) : Prop where
  inodes : sb.inodestart + (sb.ninodes / IPB + 1) ≤ sb.bmapstart
  fits : sb.nmeta ≤ sb.size
  small : sb.size < 2 ^ 32
  numbers : sb.ninodes ≤ 2 ^ 16
  root : ROOTINO < sb.ninodes

@[ext] structure Volume where
  used : Nat → Bool
  dinodes : Nat → Dinode
  data : Nat → Block

/-- The volume that the blocks encode. -/
def Store.volume (store : Store) : Volume where
  used := fun b =>
    decide (b < store.sb.size) && bitSet (store.blocks (store.sb.BBLOCK b)) (b % BPB)
  dinodes := fun inum =>
    if inum < store.sb.ninodes then
      Dinode.decode (store.blocks (store.sb.IBLOCK inum)) (inum % IPB)
    else Dinode.fresh 0
  data := fun b =>
    if store.sb.nmeta ≤ b ∧ b < store.sb.size then store.blocks b else Bytes.zero

/-! ## Regions -/

namespace Layout

variable {sb : Superblock} (layout : Layout sb)
include layout

theorem iblock_lt (inside : inum < sb.ninodes) : sb.IBLOCK inum < sb.bmapstart := by
  have sameOrBefore : inum / IPB ≤ sb.ninodes / IPB := Nat.div_le_div_right inside.le
  have region := layout.inodes
  unfold Superblock.IBLOCK
  omega

omit layout in
theorem bblock_lt (inside : b < sb.size) : sb.BBLOCK b < sb.nmeta := by
  have sameOrBefore : b / BPB ≤ sb.size / BPB := Nat.div_le_div_right inside.le
  unfold Superblock.BBLOCK Superblock.nmeta
  omega

omit layout in
theorem le_bblock (b : Nat) : sb.bmapstart ≤ sb.BBLOCK b :=
  Nat.le_add_left _ _

theorem iblock_ne_bblock (inside : inum < sb.ninodes) (b : Nat) : sb.IBLOCK inum ≠ sb.BBLOCK b := by
  have first := layout.iblock_lt inside
  have second : sb.bmapstart ≤ sb.BBLOCK b := le_bblock b
  omega

theorem iblock_lt_nmeta (inside : inum < sb.ninodes) : sb.IBLOCK inum < sb.nmeta :=
  Nat.lt_of_lt_of_le (layout.iblock_lt inside) (Nat.le_add_right _ _)

end Layout

/-! ## One write changes one place of the volume -/

namespace Store

/-- The store after `modifyBlock`. -/
def modified (store : Store) (blockno : Nat) (update : Block → Block) : Store :=
  { store with
    blocks := Function.update store.blocks blockno (update (store.blocks blockno))
    stale := Function.update store.stale blockno none
    logged := if blockno ∈ store.logged then store.logged else store.logged ++ [blockno] }

variable {store : Store}

theorem blocks_modified_of_ne {blockno other : Nat} (different : other ≠ blockno)
    (update : Block → Block) : (store.modified blockno update).blocks other = store.blocks other :=
  update_of_ne different _ _

theorem blocks_modified_self (blockno : Nat) (update : Block → Block) :
    (store.modified blockno update).blocks blockno = update (store.blocks blockno) :=
  update_self _ _ _

theorem used_modified {blockno : Nat} (outside : ∀ b, b < store.sb.size → store.sb.BBLOCK b ≠ blockno)
    (update : Block → Block) : (store.modified blockno update).volume.used = store.volume.used := by
  funext b
  show (decide (b < store.sb.size) &&
    bitSet ((store.modified blockno update).blocks (store.sb.BBLOCK b)) (b % BPB)) = _
  by_cases inside : b < store.sb.size
  · rw [blocks_modified_of_ne (outside b inside)]
    rfl
  · simp [volume, inside]

theorem dinodes_modified {blockno : Nat}
    (outside : ∀ inum, inum < store.sb.ninodes → store.sb.IBLOCK inum ≠ blockno)
    (update : Block → Block) :
    (store.modified blockno update).volume.dinodes = store.volume.dinodes := by
  funext inum
  show (if inum < store.sb.ninodes then
    Dinode.decode ((store.modified blockno update).blocks (store.sb.IBLOCK inum)) (inum % IPB)
      else Dinode.fresh 0) = _
  by_cases inside : inum < store.sb.ninodes
  · rw [blocks_modified_of_ne (outside inum inside)]
    rfl
  · simp [volume, inside]

theorem data_modified {blockno : Nat} (outside : blockno < store.sb.nmeta)
    (update : Block → Block) : (store.modified blockno update).volume.data = store.volume.data := by
  funext b
  show (if store.sb.nmeta ≤ b ∧ b < store.sb.size then (store.modified blockno update).blocks b
    else Bytes.zero) = _
  by_cases inside : store.sb.nmeta ≤ b ∧ b < store.sb.size
  · rw [blocks_modified_of_ne (by omega)]
    rfl
  · simp [volume, inside]

theorem volume_modified_bblock (layout : Layout store.sb) (inside : b < store.sb.size)
    {update : Block → Block} {value : Bool} (changes : ∀ block other, other < BPB →
      bitSet (update block) other = if other = b % BPB then value else bitSet block other) :
    (store.modified (store.sb.BBLOCK b) update).volume =
      { store.volume with used := Function.update store.volume.used b value } := by
  refine Volume.ext (funext fun other => ?_)
    (dinodes_modified (fun inum inRange => layout.iblock_ne_bblock inRange b) update)
    (data_modified (Layout.bblock_lt inside) update)
  have position : other % BPB < BPB := Nat.mod_lt _ (by decide)
  show (decide (other < store.sb.size) && bitSet
    ((store.modified (store.sb.BBLOCK b) update).blocks (store.sb.BBLOCK other)) (other % BPB)) =
      Function.update store.volume.used b value other
  by_cases sameBlock : store.sb.BBLOCK other = store.sb.BBLOCK b
  · rw [sameBlock, blocks_modified_self, changes _ _ position]
    by_cases same : other = b
    · subst other
      simp [inside]
    · have otherBit : other % BPB ≠ b % BPB := by
        intro sameBit
        have sameQuotient : other / BPB = b / BPB := Nat.add_right_cancel sameBlock
        rw [← Nat.div_add_mod other BPB, ← Nat.div_add_mod b BPB, sameBit, sameQuotient] at same
        exact same rfl
      rw [if_neg otherBit, update_of_ne same, ← sameBlock]
      rfl
  · have different : other ≠ b := by
      rintro rfl
      exact sameBlock rfl
    rw [blocks_modified_of_ne sameBlock, update_of_ne different]
    rfl

theorem volume_modified_iblock (layout : Layout store.sb)
    (inside : inum < store.sb.ninodes) {update : Block → Block} {dinode : Dinode}
    (self : ∀ block, Dinode.decode (update block) (inum % IPB) = dinode)
    (rest : ∀ block other, other ≠ inum % IPB →
      Dinode.decode (update block) other = Dinode.decode block other) :
    (store.modified (store.sb.IBLOCK inum) update).volume =
      { store.volume with dinodes := Function.update store.volume.dinodes inum dinode } := by
  refine Volume.ext (used_modified (fun b _ => (layout.iblock_ne_bblock inside b).symm) update)
    (funext fun other => ?_) (data_modified (layout.iblock_lt_nmeta inside) update)
  show (if other < store.sb.ninodes then Dinode.decode
    ((store.modified (store.sb.IBLOCK inum) update).blocks (store.sb.IBLOCK other)) (other % IPB)
      else Dinode.fresh 0) = Function.update store.volume.dinodes inum dinode other
  by_cases same : other = inum
  · subst other
    rw [if_pos inside, blocks_modified_self, self, update_self]
  · rw [update_of_ne same]
    by_cases sameBlock : store.sb.IBLOCK other = store.sb.IBLOCK inum
    · have otherSlot : other % IPB ≠ inum % IPB := by
        intro sameSlot
        have sameQuotient : other / IPB = inum / IPB := Nat.add_right_cancel sameBlock
        rw [← Nat.div_add_mod other IPB, ← Nat.div_add_mod inum IPB, sameSlot, sameQuotient] at same
        exact same rfl
      rw [sameBlock, blocks_modified_self, rest _ _ otherSlot, ← sameBlock]
      rfl
    · rw [blocks_modified_of_ne sameBlock]
      rfl

theorem volume_modified_data (store : Store) (layout : Layout store.sb)
    (behind : store.sb.nmeta ≤ b) (inside : b < store.sb.size) (update : Block → Block) :
    (store.modified b update).volume =
      { store.volume with
        data := Function.update store.volume.data b (update (store.volume.data b)) } := by
  refine Volume.ext (used_modified (fun other inRange => ?_) update)
    (dinodes_modified (fun inum inRange => ?_) update) (funext fun other => ?_)
  · have before : store.sb.BBLOCK other < store.sb.nmeta := Layout.bblock_lt inRange
    omega
  · have before := layout.iblock_lt_nmeta inRange
    omega
  · show (if store.sb.nmeta ≤ other ∧ other < store.sb.size then
      (store.modified b update).blocks other else Bytes.zero) =
        Function.update store.volume.data b (update (store.volume.data b)) other
    have isBlock : store.volume.data b = store.blocks b := if_pos ⟨behind, inside⟩
    by_cases same : other = b
    · subst other
      rw [if_pos ⟨behind, inside⟩, blocks_modified_self, update_self, isBlock]
    · rw [blocks_modified_of_ne same, update_of_ne same]
      rfl

section

variable (blockno : Nat) (update : Block → Block)
include blockno update

@[simp] theorem icache_modified : (store.modified blockno update).icache = store.icache := rfl

theorem stale_modified :
    (store.modified blockno update).stale = Function.update store.stale blockno none := rfl

end

/-- The store after `balloc` has returned a block. -/
def allocated (store : Store) (b : Nat) : Store :=
  (store.modified (store.sb.BBLOCK b) (markBit (b % BPB))).modified b fun _ => Bytes.zero

theorem volume_allocated (layout : Layout store.sb) (behind : store.sb.nmeta ≤ b)
    (inside : b < store.sb.size) :
    (store.allocated b).volume =
      { store.volume with
        used := update store.volume.used b true
        data := update store.volume.data b Bytes.zero } := by
  have marked : (store.modified (store.sb.BBLOCK b) (markBit (b % BPB))).volume = _ :=
    volume_modified_bblock layout inside fun block _ position => bitSet_markBit block position
  have zeroed : (store.allocated b).volume = _ :=
    (store.modified (store.sb.BBLOCK b) (markBit (b % BPB))).volume_modified_data layout behind
      inside fun _ => Bytes.zero
  rw [zeroed, marked]

end Store

/-! ## The block allocator -/

section

variable {store : Store}

theorem modifyBlock_wp (inOp : store.inOp = true) (blockno : Nat) (update : Block → Block) :
    Wp (modifyBlock blockno update) store fun _ after => after = store.modified blockno update := by
  simp only [modifyBlock, wp_bind, wp_get]
  rw [if_pos inOp, wp_set]
  rfl

theorem freeBit_eq_some {bi fuel found : Nat} (isFound : freeBit block bi fuel = some found) :
    found < bi + fuel ∧ bi ≤ found ∧ bitSet block found = false := by
  induction fuel generalizing bi with
  | zero => cases isFound
  | succ fuel ih =>
    rw [freeBit] at isFound
    split at isFound
    · have later := ih isFound
      exact ⟨by omega, by omega, later.2.2⟩
    · rename_i isFree
      injection isFound with same
      subst same
      exact ⟨by omega, le_refl _, by simpa using isFree⟩

theorem freeBit_eq_none {bi fuel : Nat} (notFound : freeBit block bi fuel = none)
    {position : Nat} (after : bi ≤ position) (before : position < bi + fuel) :
    bitSet block position = true := by
  induction fuel generalizing bi with
  | zero => omega
  | succ fuel ih =>
    rw [freeBit] at notFound
    split at notFound
    · rename_i isUsed
      by_cases first : position = bi
      · rw [first]
        exact isUsed
      · exact ih notFound (by omega) (by omega)
    · cases notFound

theorem ballocFrom_wp (inOp : store.inOp = true) (round fuel : Nat)
    (enough : store.sb.size ≤ (round + fuel) * BPB)
    (before : ∀ b, b < store.sb.size → b < round * BPB → store.volume.used b = true) :
    Wp (ballocFrom (round * BPB) fuel) store
      (fun b after => b < store.sb.size ∧ store.volume.used b = false ∧ after = store.allocated b)
      fun stop after => stop = .panic .ballocOutOfBlocks ∧ after = store ∧
        ∀ b, b < store.sb.size → store.volume.used b = true := by
  induction fuel generalizing round with
  | zero =>
    rw [ballocFrom, wp_throw]
    exact ⟨rfl, rfl, fun b inside => before b inside (by rw [Nat.add_zero] at enough; omega)⟩
  | succ fuel ih =>
    have quotient : ∀ bi, bi < BPB → (round * BPB + bi) / BPB = round := by
      intro bi inside
      rw [Nat.mul_comm, Nat.mul_add_div (by decide), Nat.div_eq_of_lt inside, Nat.add_zero]
    have remainder : ∀ bi, bi < BPB → (round * BPB + bi) % BPB = bi := by
      intro bi inside
      rw [Nat.mul_comm, Nat.mul_add_mod, Nat.mod_eq_of_lt inside]
    have sameBlock : ∀ bi, bi < BPB →
        store.sb.BBLOCK (round * BPB + bi) = store.sb.BBLOCK (round * BPB) := by
      intro bi inside
      have here := quotient 0 (by decide)
      rw [Nat.add_zero] at here
      rw [Superblock.BBLOCK, Superblock.BBLOCK, quotient bi inside, here]
    simp only [ballocFrom, bread, wp_bind, wp_get, wp_ite, wp_pure]
    split
    · rename_i more
      cases found : freeBit (store.blocks (store.sb.BBLOCK (round * BPB))) 0
          (min BPB (store.sb.size - round * BPB)) with
      | some bi =>
        rcases freeBit_eq_some found with ⟨limit, _, isFree⟩
        have inBlock : bi < BPB := by omega
        simp only [bzero, wp_bind]
        refine (modifyBlock_wp inOp _ _).total ?_
        rintro _ marked rfl
        have stillInOp : (store.modified (store.sb.BBLOCK (round * BPB)) (markBit bi)).inOp = true :=
          inOp
        refine (modifyBlock_wp stillInOp _ _).total ?_
        rintro _ zeroed rfl
        rw [wp_pure]
        refine ⟨by omega, ?_, ?_⟩
        · simp only [Store.volume, sameBlock bi inBlock, remainder bi inBlock, isFree,
            Bool.and_false]
        · rw [Store.allocated, sameBlock bi inBlock, remainder bi inBlock]
      | none =>
        have step := ih (round + 1) (by rw [Nat.add_right_comm]; exact enough)
        rw [Nat.succ_mul] at step
        refine step fun b inside within => ?_
        by_cases earlier : b < round * BPB
        · exact before b inside earlier
        · have inBlock : b - round * BPB < BPB := by omega
          have isUsed := freeBit_eq_none found (Nat.zero_le _)
            (by omega : b - round * BPB < 0 + min BPB (store.sb.size - round * BPB))
          have split : b = round * BPB + (b - round * BPB) := by omega
          rw [split]
          simp only [Store.volume, sameBlock _ inBlock, remainder _ inBlock, isUsed, Bool.and_true,
            decide_eq_true_iff]
          omega
    · rw [wp_throw]
      exact ⟨rfl, rfl, fun b inside => before b inside (by omega)⟩

theorem balloc_wp (inOp : store.inOp = true) :
    Wp balloc store
      (fun b after => b < store.sb.size ∧ store.volume.used b = false ∧ after = store.allocated b)
      fun stop after => stop = .panic .ballocOutOfBlocks ∧ after = store ∧
        ∀ b, b < store.sb.size → store.volume.used b = true := by
  simp only [balloc, wp_bind, wp_get]
  have loop := ballocFrom_wp inOp 0 (store.sb.size / BPB + 1)
    (by
      rw [Nat.zero_add, Nat.succ_mul, Nat.mul_comm]
      have bound := Nat.div_add_mod store.sb.size BPB
      have remainder := Nat.mod_lt store.sb.size (by decide : 0 < BPB)
      omega)
    (fun b _ never => by omega)
  rwa [Nat.zero_mul] at loop

/-- The store after `bfree`. -/
def Store.freed (store : Store) (b : Nat) : Store :=
  store.modified (store.sb.BBLOCK b) (clearBit (b % BPB))

theorem Store.volume_freed (layout : Layout store.sb) (inside : b < store.sb.size) :
    (store.freed b).volume = { store.volume with used := update store.volume.used b false } :=
  Store.volume_modified_bblock layout inside fun block _ position => bitSet_clearBit block position

theorem bfree_wp (inOp : store.inOp = true) (isUsed : store.volume.used b = true) :
    Wp (bfree b) store fun _ after => after = store.freed b := by
  have isSet : bitSet (store.blocks (store.sb.BBLOCK b)) (b % BPB) = true := by
    simp only [Store.volume, Bool.and_eq_true] at isUsed
    exact isUsed.2
  simp only [bfree, bread, wp_bind, wp_get, wp_pure, isSet, if_true]
  exact modifyBlock_wp inOp _ _

end

end Fs
end Xv6
