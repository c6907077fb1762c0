import Xv6.Fs.Address

namespace Xv6
namespace Fs

open Foundation Function Store
open Buffer (Block Stop)

/-!
# The contents of an inode

`bmap`, `itrunc`, `readi` and `writei` work on one inode whose cached copy may
be ahead of the disk until `iupdate`.  They are specified on the view of the
volume in which this inode is as the cache has it: the view stays owned at
every moment, and with `iupdate` it becomes the volume.

In the view an inode is an array of bytes, and a write replaces a range of one
array.  What makes this true is ownership: no two places share a block.
-/

/-! ## The view of an inode that is being changed -/

variable {b other bn entry off position tot n m copied : Nat}

namespace Store

/-- The volume with one inode as the cache has it. -/
def view (store : Store) (ip : Index) : Volume :=
  { store.volume with
    dinodes := update store.volume.dinodes (store.icache ip).inum (store.icache ip).dinode }

/-- The store after `setDinode`. -/
def withDinode (store : Store) (ip : Index) (update : Dinode → Dinode) : Store :=
  { store with
    icache := Function.update store.icache ip
      { store.icache ip with dinode := update (store.icache ip).dinode } }

variable {store : Store} {ip : Index}

@[simp] theorem icache_withDinode (update : Dinode → Dinode) :
    (store.withDinode ip update).icache ip =
      { store.icache ip with dinode := update (store.icache ip).dinode } :=
  update_self _ _ _

@[simp] theorem volume_withDinode (update : Dinode → Dinode) :
    (store.withDinode ip update).volume = store.volume := rfl

@[simp] theorem dinodes_view_self : (store.view ip).dinodes (store.icache ip).inum =
    (store.icache ip).dinode :=
  update_self _ _ _

theorem dinodes_view_of_ne {inum : Nat} (different : inum ≠ (store.icache ip).inum) :
    (store.view ip).dinodes inum = store.volume.dinodes inum :=
  update_of_ne different _ _

theorem view_eq_volume
    (coherent : (store.icache ip).dinode = store.volume.dinodes (store.icache ip).inum) :
    store.view ip = store.volume := by
  rw [view, coherent, update_eq_self]

theorem view_withDinode (update : Dinode → Dinode) :
    (store.withDinode ip update).view ip =
      { store.view ip with
        dinodes := Function.update (store.view ip).dinodes (store.icache ip).inum
          (update (store.icache ip).dinode) } := by
  simp only [view, icache_withDinode, volume_withDinode, update_idem]

theorem data_of_pool (inPool : Pool store.sb b) : store.volume.data b = store.blocks b :=
  if_pos inPool

theorem stale_allocated (b other : Nat) (isStale : (store.allocated b).stale other ≠ none) :
    other ≠ b ∧ store.stale other ≠ none := by
  have notNew : other ≠ b := by
    rintro rfl
    exact isStale (update_self _ _ _)
  refine ⟨notNew, fun nothing => isStale ?_⟩
  rw [allocated, stale_modified, update_of_ne notNew, stale_modified]
  by_cases isMap : other = store.sb.BBLOCK b
  · rw [isMap, update_self]
  · rw [update_of_ne isMap, nothing]

end Store

variable {store after middle : Store} {returns : PUnit → Store → Prop} {stops : Stop → Store → Prop}

theorem wp_setDinode (ip : Index) (update : Dinode → Dinode) :
    Wp (setDinode ip update) store returns stops ↔ returns ⟨⟩ (store.withDinode ip update) := by
  rw [setDinode, setInode, wp_modify]
  rfl

/-- What was not logged is part of a file, and not of a directory or of the
addresses of a file. -/
def StaleInFiles (store : Store) (volume : Volume) : Prop :=
  ∀ b, store.stale b ≠ none → Pool store.sb b ∧
    ∀ place, volume.blockAt place = b → (volume.dinodes place.1).type ≠ T_DIR ∧ place.2 ≠ none

/-- An inode is being changed inside of a transaction.  Where what was not
logged is tracked, it stays inside of files. -/
structure Editing (tracked : Prop) (store : Store) (ip : Index) : Prop where
  layout : Layout store.sb
  inOp : store.inOp = true
  inRange : (store.icache ip).inum < store.sb.ninodes
  typed : (store.icache ip).dinode.type ≠ 0
  owned : Owned store.sb (store.view ip)
  stale : tracked → StaleInFiles store (store.view ip)

/-- What stays the same while an inode is changed. -/
structure Edited (before after : Store) (ip : Index) : Prop where
  sb : after.sb = before.sb
  inOp : after.inOp = before.inOp
  lookups : after.lookups = before.lookups
  entry : { after.icache ip with dinode := (before.icache ip).dinode } = before.icache ip
  others : ∀ other, other ≠ ip → after.icache other = before.icache other

namespace Edited

variable {first second third : Store} {ip : Index}

theorem refl (store : Store) (ip : Index) : Edited store store ip :=
  ⟨rfl, rfl, rfl, rfl, fun _ _ => rfl⟩

theorem trans (early : Edited first second ip) (late : Edited second third ip) :
    Edited first third ip := by
  refine ⟨late.sb.trans early.sb, late.inOp.trans early.inOp, late.lookups.trans early.lookups, ?_,
    fun other different => (late.others other different).trans (early.others other different)⟩
  rw [← early.entry, ← late.entry]

theorem inum (edited : Edited first second ip) : (second.icache ip).inum = (first.icache ip).inum := by
  rw [← edited.entry]

variable (store : Store) (ip : Index)

theorem withDinode (update : Dinode → Dinode) : Edited store (store.withDinode ip update) ip := by
  refine ⟨rfl, rfl, rfl, ?_, fun other different => update_of_ne different _ _⟩
  rw [icache_withDinode]

theorem modified (b : Nat) (update : Block → Block) : Edited store (store.modified b update) ip :=
  ⟨rfl, rfl, rfl, rfl, fun _ _ => rfl⟩

theorem allocated (b : Nat) : Edited store (store.allocated b) ip :=
  ⟨rfl, rfl, rfl, rfl, fun _ _ => rfl⟩

end Edited

/-- The inodes differ in their sizes and addresses at most. -/
structure Dinode.Alike (first second : Dinode) : Prop where
  type : second.type = first.type
  major : second.major = first.major
  minor : second.minor = first.minor
  nlink : second.nlink = first.nlink

theorem Dinode.Alike.refl (dinode : Dinode) : Dinode.Alike dinode dinode :=
  ⟨rfl, rfl, rfl, rfl⟩

theorem Dinode.Alike.trans {first second third : Dinode} (early : Dinode.Alike first second)
    (late : Dinode.Alike second third) : Dinode.Alike first third :=
  ⟨late.type.trans early.type, late.major.trans early.major, late.minor.trans early.minor,
    late.nlink.trans early.nlink⟩

/-- Blocks were added to an inode and some of its bytes written, and nothing
else is different. -/
structure Growth (before after : Volume) (inum : Nat) (written : Nat → Prop) : Prop where
  byte : ∀ other position, ¬ (other = inum ∧ written position) →
    after.byte other position = before.byte other position
  kept : ∀ place, before.blockAt place ≠ 0 → after.blockAt place = before.blockAt place
  others : ∀ other, other ≠ inum → after.dinodes other = before.dinodes other
  alike : Dinode.Alike (before.dinodes inum) (after.dinodes inum)
  size : (after.dinodes inum).size = (before.dinodes inum).size

namespace Growth

variable {first second third : Volume} {inum : Nat} {written : Nat → Prop}

theorem refl (volume : Volume) (inum : Nat) (written : Nat → Prop) :
    Growth volume volume inum written :=
  ⟨fun _ _ _ => rfl, fun _ _ => rfl, fun _ _ => rfl, Dinode.Alike.refl _, rfl⟩

theorem trans (early : Growth first second inum written)
    (late : Growth second third inum written) : Growth first third inum written := by
  refine ⟨fun other position untouched => (late.byte other position untouched).trans
      (early.byte other position untouched), fun place present => ?_,
    fun other different => (late.others other different).trans (early.others other different),
    early.alike.trans late.alike, late.size.trans early.size⟩
  have kept := early.kept place present
  rw [← kept]
  exact late.kept place (kept.symm ▸ present)

theorem mono {more : Nat → Prop} (growth : Growth first second inum written)
    (larger : ∀ position, written position → more position) : Growth first second inum more :=
  ⟨fun other position untouched => growth.byte other position
    fun touched => untouched ⟨touched.1, larger position touched.2⟩,
    growth.kept, growth.others, growth.alike, growth.size⟩

theorem address_ne_zero (growth : Growth first second inum written)
    (present : first.address other bn ≠ 0) : second.address other bn ≠ 0 := by
  have kept : second.address other bn = first.address other bn :=
    growth.kept (other, some bn) present
  rw [kept]
  exact present

theorem cached {before : Store} {ip : Index} (edited : Edited before after ip)
    (growth : Growth (before.view ip) (after.view ip) (before.icache ip).inum written) :
    Dinode.Alike (before.icache ip).dinode (after.icache ip).dinode ∧
      (after.icache ip).dinode.size = (before.icache ip).dinode.size := by
  have alike := growth.alike
  have size := growth.size
  rw [dinodes_view_self, ← edited.inum, dinodes_view_self] at alike size
  exact ⟨alike, size⟩

end Growth

/-- No block is free. -/
def Store.Full (store : Store) : Prop :=
  ∀ b, b < store.sb.size → store.volume.used b = true

/-- The free blocks have run out. -/
def OutOfBlocks (store : Store) (stop : Stop) (after : Store) : Prop :=
  stop = .panic .ballocOutOfBlocks ∧ after.Full ∧ after.lookups = store.lookups

/-! ## `bmap` -/

variable {before volume : Volume} {place : Place}

section

variable {tracked : Prop} {ip : Index}

theorem Filled.growth {sb : Superblock} {after : Volume}
    (filled : Filled sb before after place b) (isOwned : Owned sb before)
    (others : ∀ other, other ≠ place.1 → after.dinodes other = before.dinodes other)
    (alike : Dinode.Alike (before.dinodes place.1) (after.dinodes place.1))
    (size : (after.dinodes place.1).size = (before.dinodes place.1).size) :
    Growth before after place.1 fun _ => False := by
  refine ⟨fun other position _ => by rw [filled.byte isOwned],
    fun other present => filled.blockAt_of_ne ?_, others, alike, size⟩
  rintro rfl
  exact present (Volume.held_eq_none.mp filled.empty)

theorem StaleInFiles.filled
    (stale : StaleInFiles store before) (filled : Filled store.sb before volume place b)
    (sameSb : after.sb = store.sb)
    (fewer : ∀ other, after.stale other ≠ none → other ≠ b ∧ store.stale other ≠ none) :
    StaleInFiles after volume := by
  intro other isStale
  rcases fewer other isStale with ⟨notNew, wasStale⟩
  rcases stale other wasStale with ⟨inPool, inFile⟩
  refine ⟨sameSb ▸ inPool, fun spot holds => ?_⟩
  have elsewhere : spot ≠ place := by
    rintro rfl
    exact notNew (holds.symm.trans filled.blockAt_self)
  rw [filled.types]
  exact inFile spot (by rw [← filled.blockAt_of_ne elsewhere]; exact holds)

theorem Editing.filled (editing : Editing tracked store ip) (edited : Edited store after ip)
    (filled : Filled store.sb (store.view ip) (after.view ip) place b)
    (fewer : ∀ other, after.stale other ≠ none → other ≠ b ∧ store.stale other ≠ none) :
    Editing tracked after ip := by
  refine ⟨edited.sb ▸ editing.layout, edited.inOp.trans editing.inOp, ?_, ?_,
    edited.sb ▸ filled.owned editing.owned, 
    fun isTracked => (editing.stale isTracked).filled filled edited.sb fewer⟩
  · rw [edited.inum, edited.sb]
    exact editing.inRange
  · have sameType := filled.types (store.icache ip).inum
    rw [← edited.inum, dinodes_view_self, edited.inum, dinodes_view_self] at sameType
    rw [sameType]
    exact editing.typed

theorem bmapSlot_wp (editing : Editing tracked store ip) (slot : Fin (NDIRECT + 1)) :
    Wp (bmapSlot ip slot) store
      (fun b after => Editing tracked after ip ∧ Edited store after ip ∧
        Growth (store.view ip) (after.view ip) (store.icache ip).inum (fun _ => False) ∧
        b = ((after.icache ip).dinode.addrs slot).toNat ∧ b ≠ 0)
      (OutOfBlocks store) := by
  simp only [bmapSlot, wp_bind, wp_get, wp_ite, wp_pure]
  split
  · rename_i missing
    refine (balloc_wp editing.inOp).mono ?_ ?_
    · rintro b _ ⟨inside, unused, rfl⟩
      have inPool := editing.owned.pool_of_unused inside unused
      have small := editing.layout.small
      simp only [wp_setDinode]
      have isView : ((store.allocated b).withDinode ip fun dinode =>
          { dinode with addrs := update dinode.addrs slot (BitVec.ofNat 32 b) }).view ip =
            (store.view ip).fillSlot (store.icache ip).inum slot b := by
        have volume := volume_allocated editing.layout inPool.1 inPool.2
        have sameCache : (store.allocated b).icache = store.icache := rfl
        rw [view_withDinode, Store.view, volume, sameCache]
        simp [Volume.fillSlot, Store.view]
      have filled : Filled store.sb (store.view ip)
          ((store.view ip).fillSlot (store.icache ip).inum slot b) _ b :=
        editing.owned.filled_fillSlot small (by rw [dinodes_view_self]; exact editing.typed)
          (by rw [dinodes_view_self]; exact missing) inPool unused
      have edited : Edited store _ ip := (Edited.allocated store ip b).trans
        (Edited.withDinode (store.allocated b) ip fun dinode =>
          { dinode with addrs := update dinode.addrs slot (BitVec.ofNat 32 b) })
      have growth := filled.growth editing.owned (fun other different => update_of_ne different _ _)
        (by simp only [Volume.fillSlot, Volume.slotPlace, update_self]
            exact ⟨rfl, rfl, rfl, rfl⟩)
        (by simp only [Volume.fillSlot, Volume.slotPlace, update_self])
      rw [← isView] at filled growth
      refine ⟨editing.filled edited filled (stale_allocated b), edited, growth, ?_,
        pool_ne_zero inPool⟩
      rw [icache_withDinode]
      simp only [update_self, BitVec.toNat_ofNat]
      exact (Nat.mod_eq_of_lt (Nat.lt_trans inside small)).symm
    · rintro stop _ ⟨isStop, rfl, full⟩
      exact ⟨isStop, full, rfl⟩
  · rename_i present
    refine ⟨editing, Edited.refl _ _, Growth.refl _ _ _, trivial, ?_⟩
    intro zero
    exact present (BitVec.eq_of_toNat_eq zero)

theorem Volume.address_indirect (volume : Volume) (inum : Nat) (inside : entry < NINDIRECT) :
    volume.address inum (NDIRECT + entry) =
      (volume.data (volume.indirect inum)).getLE (4 * entry) 4 := by
  have last : MAXFILE = NDIRECT + NINDIRECT := rfl
  rw [Volume.address, if_neg (by omega), if_pos (by omega), Nat.add_sub_cancel_left]

theorem Volume.address_direct (volume : Volume) (inum : Nat) (direct : bn < NDIRECT) :
    volume.address inum bn = ((volume.dinodes inum).addrs (Fin.ofNat _ bn)).toNat :=
  if_pos direct

theorem bmapEntry_wp (editing : Editing tracked store ip) {indirect : Nat}
    (inside : entry < NINDIRECT)
    (isIndirect : indirect = ((store.icache ip).dinode.addrs indirectSlot).toNat)
    (present : indirect ≠ 0) :
    Wp (bmapEntry indirect entry) store
      (fun b after => Editing tracked after ip ∧ Edited store after ip ∧
        Growth (store.view ip) (after.view ip) (store.icache ip).inum (fun _ => False) ∧
        b = (after.view ip).address (after.icache ip).inum (NDIRECT + entry) ∧ b ≠ 0)
      (OutOfBlocks store) := by
  have isBlock : (store.view ip).indirect (store.icache ip).inum = indirect := by
    rw [Volume.indirect, dinodes_view_self, isIndirect]
  have indirectInPool : Pool store.sb indirect := by
    have nonzero : (store.view ip).blockAt ((store.icache ip).inum, none) ≠ 0 := by
      rw [Volume.blockAt, isBlock]
      exact present
    have inPool := editing.owned.pool_of_ne_zero nonzero
    rwa [Volume.blockAt, isBlock] at inPool
  have isAddress : (store.view ip).address (store.icache ip).inum (NDIRECT + entry) =
      (store.blocks indirect).getLE (4 * entry) 4 := by
    rw [Volume.address_indirect _ _ inside, isBlock, ← data_of_pool indirectInPool]
    rfl
  simp only [bmapEntry, bread, wp_bind, wp_get, wp_ite, wp_pure]
  split
  · rename_i missing
    refine (balloc_wp editing.inOp).mono ?_ ?_
    · rintro b _ ⟨insideSize, unused, rfl⟩
      have inPool := editing.owned.pool_of_unused insideSize unused
      have stillInOp : (store.allocated b).inOp = true := editing.inOp
      refine (modifyBlock_wp stillInOp _ _).total ?_
      rintro _ _ rfl
      have edited : Edited store _ ip := (Edited.allocated store ip b).trans
        (Edited.modified (store.allocated b) ip indirect fun block => block.setLE (4 * entry) 4 b)
      have notIndirect : indirect ≠ b := by
        rw [← isBlock]
        exact editing.owned.ne_of_unused unused inPool (_, none)
      have isView : ((store.allocated b).modified indirect fun block =>
          block.setLE (4 * entry) 4 b).view ip =
            (store.view ip).fillEntry (store.icache ip).inum entry b := by
        rw [Store.view, (store.allocated b).volume_modified_data editing.layout indirectInPool.1
          indirectInPool.2, volume_allocated editing.layout inPool.1 inPool.2,
          Volume.fillEntry, isBlock]
        dsimp only
        rw [update_of_ne notIndirect]
        rfl
      have filled : Filled store.sb (store.view ip)
          ((store.view ip).fillEntry (store.icache ip).inum entry b) _ b :=
        editing.owned.filled_fillEntry editing.layout.small
          (by rw [dinodes_view_self]; exact editing.typed) (by rw [isBlock]; exact present)
          inside (isAddress.trans missing) inPool unused
      have growth := filled.growth editing.owned (fun _ _ => rfl) (Dinode.Alike.refl _) rfl
      have isNew := filled.blockAt_self
      rw [← isView] at filled growth isNew
      refine ⟨editing.filled edited filled ?_, edited, growth, isNew.symm, pool_ne_zero inPool⟩
      intro other isStale
      refine stale_allocated b other fun nothing => isStale ?_
      rw [stale_modified]
      by_cases same : other = indirect
      · rw [same, update_self]
      · rw [update_of_ne same, nothing]
    · rintro stop _ ⟨isStop, rfl, full⟩
      exact ⟨isStop, full, rfl⟩
  · rename_i mapped
    exact ⟨editing, Edited.refl _ _, Growth.refl _ _ _, isAddress.symm, mapped⟩

theorem bmap_wp (editing : Editing tracked store ip) (inside : bn < MAXFILE) :
    Wp (bmap ip bn) store
      (fun b after => Editing tracked after ip ∧ Edited store after ip ∧
        Growth (store.view ip) (after.view ip) (store.icache ip).inum (fun _ => False) ∧
        b = (after.view ip).address (after.icache ip).inum bn ∧ b ≠ 0)
      (OutOfBlocks store) := by
  have last : MAXFILE = NDIRECT + NINDIRECT := rfl
  rw [bmap, wp_ite]
  split
  · rename_i direct
    refine (bmapSlot_wp editing _).imp ?_
    rintro b after ⟨edit, edited, growth, isBlock, nonzero⟩
    refine ⟨edit, edited, growth, ?_, nonzero⟩
    rw [Volume.address_direct _ _ direct, dinodes_view_self, isBlock]
  · rename_i behind
    have isEntry : NDIRECT + (bn - NDIRECT) = bn := by omega
    rw [if_pos (by omega)]
    refine (bmapSlot_wp editing indirectSlot).seq ?_
    rintro indirect middle ⟨edit, edited, growth, isIndirect, present⟩
    have rest := bmapEntry_wp edit (by omega : bn - NDIRECT < NINDIRECT) isIndirect present
    rw [isEntry] at rest
    refine rest.mono ?_ ?_
    · rintro b after ⟨edit', edited', growth', isBlock, nonzero⟩
      rw [edited.inum] at growth'
      exact ⟨edit', edited.trans edited', growth.trans growth', isBlock, nonzero⟩
    · rintro stop after ⟨isStop, full, sameLookups⟩
      exact ⟨isStop, full, sameLookups.trans edited.lookups⟩

theorem bmap_of_mapped (owned : Owned store.sb (store.view ip))
    (mapped : (store.view ip).address (store.icache ip).inum bn ≠ 0) :
    Wp (bmap ip bn) store
      fun b after => after = store ∧ b = (store.view ip).address (store.icache ip).inum bn := by
  have last : MAXFILE = NDIRECT + NINDIRECT := rfl
  have slotFound : ∀ slot, (store.icache ip).dinode.addrs slot ≠ 0 →
      Wp (bmapSlot ip slot) store
        fun b after => after = store ∧ b = ((store.icache ip).dinode.addrs slot).toNat := by
    intro slot present
    simp only [bmapSlot, wp_bind, wp_get, if_neg present, wp_pure, and_self]
  by_cases direct : bn < NDIRECT
  · rw [Volume.address_direct _ _ direct, dinodes_view_self] at mapped ⊢
    rw [bmap, if_pos direct]
    exact slotFound _ fun zero => mapped (by rw [zero]; rfl)
  · have inside : bn - NDIRECT < NINDIRECT := by
      refine Nat.lt_of_not_le fun beyond => mapped ?_
      rw [Volume.address, if_neg direct, if_neg (by omega)]
    have isAddress := (store.view ip).address_indirect (store.icache ip).inum inside
    rw [Nat.add_sub_cancel' (Nat.le_of_not_lt direct)] at isAddress
    have present : (store.view ip).blockAt ((store.icache ip).inum, none) ≠ 0 := by
      intro zero
      rw [isAddress, show (store.view ip).indirect (store.icache ip).inum = 0 from zero, owned.zero,
        Bytes.getLE_zero] at mapped
      exact mapped rfl
    have inPool := owned.pool_of_ne_zero present
    have isIndirect : (store.view ip).blockAt ((store.icache ip).inum, none) =
        ((store.icache ip).dinode.addrs indirectSlot).toNat := by
      rw [Volume.blockAt, Volume.indirect, dinodes_view_self]
    have isBlock : (store.view ip).data ((store.view ip).indirect (store.icache ip).inum) =
        store.blocks ((store.icache ip).dinode.addrs indirectSlot).toNat := by
      rw [← isIndirect]
      exact data_of_pool inPool
    rw [isBlock] at isAddress
    rw [bmap, if_neg direct, if_pos inside]
    refine (slotFound indirectSlot fun zero => present (by rw [isIndirect, zero]; rfl)).seq ?_
    rintro _ _ ⟨rfl, rfl⟩
    simp only [bmapEntry, bread, wp_bind, wp_get, wp_pure, ← isAddress, if_neg mapped, and_self]

end

/-! ## Reading -/

/-- All bytes below the size of the inode have a block. -/
structure HoleFree (volume : Volume) (inum : Nat) : Prop where
  bounded : (volume.dinodes inum).size.toNat ≤ MAXFILE * BSIZE
  mapped : ∀ bn, bn * BSIZE < (volume.dinodes inum).size.toNat → volume.address inum bn ≠ 0

/-- The bytes of an inode from an offset on. -/
def Volume.bytes (volume : Volume) (inum off count : Nat) : List UInt8 :=
  (List.range count).map fun position => volume.byte inum (off + position)

/-- The abstract contents of an inode. -/
def Volume.contents (volume : Volume) (inum : Nat) : List UInt8 :=
  volume.bytes inum 0 (volume.dinodes inum).size.toNat

theorem sameBlock (inside : off % BSIZE + position < BSIZE) :
    (off + position) / BSIZE = off / BSIZE ∧ (off + position) % BSIZE = off % BSIZE + position := by
  have split : off + position = BSIZE * (off / BSIZE) + (off % BSIZE + position) := by
    rw [← Nat.add_assoc, Nat.div_add_mod]
  constructor
  · rw [split, Nat.mul_add_div (by decide), Nat.div_eq_of_lt inside, Nat.add_zero]
  · rw [split, Nat.mul_add_mod, Nat.mod_eq_of_lt inside]

namespace Volume

theorem bytes_append (volume : Volume) (inum off first second : Nat) :
    volume.bytes inum off first ++ volume.bytes inum (off + first) second =
      volume.bytes inum off (first + second) := by
  simp only [bytes, List.range_add, List.map_append, List.map_map, comp_def, Nat.add_assoc]

theorem byte_of_block (volume : Volume) (inum : Nat) (inside : off % BSIZE + position < BSIZE) :
    volume.byte inum (off + position) =
      (volume.data (volume.address inum (off / BSIZE))).get (off % BSIZE + position) := by
  rw [byte, (sameBlock inside).1, (sameBlock inside).2]

end Volume

section

variable {ip : Index}

/-- A copy to the first `count` bytes of the destination does not fail. -/
def Destination.Reaches (dst : Destination) (count : Nat) : Prop :=
  ∀ position length, position + length ≤ count → dst.reach position length = length

theorem readiFrom_wp (owned : Owned store.sb (store.view ip)) (dst : Destination) {fuel : Nat}
    (mapped : ∀ bn, off / BSIZE ≤ bn → bn * BSIZE < off + (n - tot) →
      (store.view ip).address (store.icache ip).inum bn ≠ 0)
    (started : tot ≤ n) (enough : n - tot ≤ fuel) :
    Wp (readiFrom ip dst tot off n fuel) store
      fun result after => after = store ∧ result.1 ≤ n ∧ (dst.Reaches n →
        result = (n, (store.view ip).bytes (store.icache ip).inum off (n - tot))) := by
  induction fuel generalizing tot off with
  | zero =>
    have done : tot = n := by omega
    simp [readiFrom, done, Volume.bytes]
  | succ fuel ih =>
    simp only [readiFrom, wp_ite]
    split
    · rename_i more
      have first : off / BSIZE * BSIZE ≤ off := Nat.div_mul_le_self _ _
      have present := mapped (off / BSIZE) le_rfl (by omega)
      have below := Nat.mod_lt off (by decide : 0 < BSIZE)
      have inPool := owned.pool_of_address present
      refine (bmap_of_mapped owned present).seq ?_
      rintro _ store ⟨rfl, rfl⟩
      simp only [bread, wp_bind, wp_get, wp_pure]
      generalize isCount : min (n - tot) (BSIZE - off % BSIZE) = m
      have positive : 0 < m := by omega
      rw [wp_ite]
      split
      · rename_i fault
        rw [wp_pure]
        refine ⟨rfl, started, fun reaches => ?_⟩
        have copied := reaches tot m (by omega)
        omega
      · have rest : Wp (readiFrom ip dst (tot + m) (off + m) n fuel) _ _ _ :=
          ih (fun bn behind inside => mapped bn
            ((Nat.div_le_div_right (Nat.le_add_right _ _)).trans behind) (by omega))
            (by omega) (by omega)
        refine rest.seq ?_
        rintro result store ⟨rfl, atMost, whole⟩
        rw [wp_pure]
        refine ⟨rfl, atMost, fun reaches => ?_⟩
        have bytes : (List.range m).map (fun position => (store.blocks ((store.view ip).address
            (store.icache ip).inum (off / BSIZE))).get (off % BSIZE + position)) =
              (store.view ip).bytes (store.icache ip).inum off m := by
          apply List.map_congr_left
          intro position member
          have inside := List.mem_range.mp member
          rw [Volume.byte_of_block _ _ (by omega), ← data_of_pool inPool]
          rfl
        have sum : m + (n - (tot + m)) = n - tot := by omega
        rw [whole reaches, reaches tot m (by omega), bytes, Volume.bytes_append, sum]
    · rename_i done
      have finished : tot = n := by omega
      simp [finished, Volume.bytes]

/-- How many bytes `readi` returns. -/
def readCount (size off n : Nat) : Nat :=
  if off > size ∨ 2 ^ 32 ≤ off + n then 0 else min n (size - off)

theorem wraps_iff (offFits : off < 2 ^ 32) (nFits : n < 2 ^ 32) :
    (off + n) % 2 ^ 32 < off ↔ 2 ^ 32 ≤ off + n := by
  omega

/-- `readi` changes nothing, and it returns the bytes of the inode unless a copy
fails. -/
theorem readi_wp (owned : Owned store.sb (store.view ip))
    (holeFree : HoleFree (store.view ip) (store.icache ip).inum) (dst : Destination)
    (offFits : off < 2 ^ 32) (nFits : n < 2 ^ 32) :
    Wp (readi ip dst off n) store
      fun result after => after = store ∧
        result.1 ≤ readCount (store.icache ip).dinode.size.toNat off n ∧
        (dst.Reaches (readCount (store.icache ip).dinode.size.toNat off n) →
          result.1 = readCount (store.icache ip).dinode.size.toNat off n ∧
          result.2 = (store.view ip).bytes (store.icache ip).inum off result.1) := by
  have mapped := holeFree.mapped
  rw [dinodes_view_self] at mapped
  generalize isSize : (store.icache ip).dinode.size.toNat = size at mapped
  have loop : ∀ count, off + count ≤ size → Wp (readiFrom ip dst 0 off count count) store
      fun result after => after = store ∧ result.1 ≤ count ∧ (dst.Reaches count →
        result.1 = count ∧ result.2 = (store.view ip).bytes (store.icache ip).inum off result.1) := by
    intro count inside
    refine (readiFrom_wp owned dst (fun bn _ below => mapped bn (by omega)) (Nat.zero_le _)
      (by omega)).imp ?_
    rintro result after ⟨isAfter, atMost, whole⟩
    refine ⟨isAfter, atMost, fun reaches => ?_⟩
    rw [whole reaches]
    exact ⟨rfl, rfl⟩
  simp only [readi, wp_bind, wp_get, isSize, wp_ite, wp_pure, wraps_iff offFits nFits]
  by_cases nothing : off > size ∨ 2 ^ 32 ≤ off + n
  · rw [if_pos nothing, readCount, if_pos nothing]
    exact ⟨trivial, Nat.le_refl 0, fun _ => ⟨rfl, rfl⟩⟩
  · have sum : (off + n) % 2 ^ 32 = off + n := by omega
    rw [if_neg nothing, sum, readCount, if_neg nothing]
    split
    · rw [Nat.min_eq_right (by omega)]
      exact loop (size - off) (by omega)
    · rw [Nat.min_eq_left (by omega)]
      exact loop n (by omega)

end

/-! ## Writing -/

namespace Volume

/-- A data block takes new contents. -/
def written (volume : Volume) (b : Nat) (update : Block → Block) : Volume :=
  { volume with data := Function.update volume.data b (update (volume.data b)) }

theorem blockAt_written (different : ∀ other, volume.indirect other ≠ b) (update : Block → Block) :
    (volume.written b update).blockAt = volume.blockAt := by
  funext place
  have untouched : (volume.written b update).data (volume.indirect place.1) =
      volume.data (volume.indirect place.1) := update_of_ne (different place.1) _ _
  refine Volume.blockAt_congr ?_ untouched place.2
  rfl

end Volume

variable {update : Block → Block}

namespace Owned

variable {sb : Superblock} {inum : Nat} (owned : Owned sb volume)
include owned

section

variable (present : volume.address inum bn ≠ 0) (update : Block → Block)
include present

theorem blockAt_written :
    (volume.written (volume.address inum bn) update).blockAt = volume.blockAt := by
  apply Volume.blockAt_written
  intro other same
  have samePlace : ((inum, some bn) : Place) = (other, none) :=
    owned.eq_of_blockAt present same.symm
  simp at samePlace

theorem byte_written (other position : Nat) :
    (volume.written (volume.address inum bn) update).byte other position =
      if other = inum ∧ position / BSIZE = bn then
        (update (volume.data (volume.address inum bn))).get (position % BSIZE)
      else volume.byte other position := by
  have sameAddress : (volume.written (volume.address inum bn) update).address other
      (position / BSIZE) = volume.address other (position / BSIZE) :=
    congrFun (owned.blockAt_written present update) (other, some (position / BSIZE))
  rw [Volume.byte, sameAddress, Volume.written]
  dsimp only
  split
  · rename_i here
    rw [here.1, here.2, update_self]
  · rename_i elsewhere
    have different : volume.address other (position / BSIZE) ≠ volume.address inum bn := by
      intro same
      have samePlace : ((inum, some bn) : Place) = (other, some (position / BSIZE)) :=
        owned.eq_of_blockAt present same.symm
      simp only [Prod.mk.injEq, Option.some.injEq] at samePlace
      exact elsewhere ⟨samePlace.1.symm, samePlace.2.symm⟩
    rw [update_of_ne different]
    rfl

end

theorem of_blockAt (nonzero : b ≠ 0) (same : (volume.written b update).blockAt = volume.blockAt) :
    Owned sb (volume.written b update) := by
  have held : (volume.written b update).held = volume.held := by
    funext place
    exact Volume.held_congr (congrFun same place)
  refine ⟨?_, owned.metadata, ?_, ?_⟩
  · rw [held]
    exact owned.allocation
  · rw [held]
    exact owned.free
  · rw [← owned.zero]
    exact update_of_ne (Ne.symm nonzero) _ _

theorem written (present : volume.address inum bn ≠ 0)
    (update : Block → Block) : Owned sb (volume.written (volume.address inum bn) update) :=
  owned.of_blockAt present (owned.blockAt_written present update)

end Owned

/-- The store after `scribble`. -/
def Store.scribbled (store : Store) (blockno : Nat) (update : Block → Block) : Store :=
  { store with
    blocks := Function.update store.blocks blockno (update (store.blocks blockno))
    stale := if blockno ∈ store.logged then store.stale
      else Function.update store.stale blockno
        (some ((store.stale blockno).getD (store.blocks blockno))) }

theorem scribble_wp (blockno : Nat) (update : Block → Block) :
    Wp (scribble blockno update) store returns stops ↔
      returns ⟨⟩ (store.scribbled blockno update) := by
  rw [scribble, wp_modify]
  rfl

theorem Store.view_scribbled (store : Store) (ip : Index) (blockno : Nat) (update : Block → Block) :
    (store.scribbled blockno update).view ip = (store.modified blockno update).view ip := rfl

theorem Store.stale_scribbled {blockno : Nat} (different : other ≠ blockno)
    (update : Block → Block) : (store.scribbled blockno update).stale other = store.stale other := by
  simp only [scribbled]
  split
  · rfl
  · exact update_of_ne different _ _

theorem mapped_le (memory : UserMemory) (address length fuel : Nat) :
    mapped memory address length fuel ≤ length := by
  induction fuel generalizing address length with
  | zero => exact Nat.zero_le _
  | succ fuel ih =>
    simp only [mapped]
    split
    · exact Nat.zero_le _
    · split
      · have rest := ih ((address + min (PGSIZE - address % PGSIZE) length) % 2 ^ 64)
          (length - min (PGSIZE - address % PGSIZE) length)
        omega
      · exact Nat.zero_le _

namespace Source

theorem reach_le (src : Source) (position length : Nat) : src.reach position length ≤ length := by
  cases src with
  | kernel bytes => exact le_rfl
  | user memory address => exact mapped_le _ _ _ _

/-- Every byte of the source can be read. -/
def Total (src : Source) : Prop :=
  ∀ position length, src.reach position length = length

theorem total_kernel (bytes : Nat → UInt8) : (kernel bytes).Total :=
  fun _ _ => rfl

end Source

section

variable {tracked : Prop} {ip : Index}

/-- An inode that is being changed after one of its blocks was written. -/
theorem Editing.written (editing : Editing tracked store ip) (edited : Edited store after ip)
    (present : (store.view ip).address (store.icache ip).inum bn ≠ 0) (isView : after.view ip =
      (store.view ip).written ((store.view ip).address (store.icache ip).inum bn) update)
    (stale : ∀ b, after.stale b ≠ none → store.stale b ≠ none ∨
      b = (store.view ip).address (store.icache ip).inum bn ∧
        (store.icache ip).dinode.type ≠ T_DIR) : Editing tracked after ip := by
  have sameDinodes : (after.view ip).dinodes = (store.view ip).dinodes := by
    rw [isView]
    rfl
  refine ⟨edited.sb ▸ editing.layout, edited.inOp.trans editing.inOp, ?_, ?_, ?_, ?_⟩
  · rw [edited.inum, edited.sb]
    exact editing.inRange
  · have same : (after.icache ip).dinode = (store.icache ip).dinode := by
      rw [← dinodes_view_self, sameDinodes, edited.inum, dinodes_view_self]
    rw [same]
    exact editing.typed
  · rw [edited.sb, isView]
    exact editing.owned.written present update
  · intro isTracked b isStale
    rw [edited.sb, isView, editing.owned.blockAt_written present, ← isView, sameDinodes]
    rcases stale b isStale with wasStale | ⟨isBlock, notDirectory⟩
    · exact editing.stale isTracked b wasStale
    · subst isBlock
      refine ⟨editing.owned.pool_of_address present, fun place holds => ?_⟩
      have isPlace : (((store.icache ip).inum, some bn) : Place) = place :=
        editing.owned.eq_of_blockAt present holds.symm
      subst isPlace
      refine ⟨?_, by simp⟩
      rw [dinodes_view_self]
      exact notDirectory

/-- One block of an inode was written from a position on. -/
theorem Growth.written (editing : Editing tracked store ip)
    (present : (store.view ip).address (store.icache ip).inum bn ≠ 0) {touched : Nat → Prop}
    (unchanged : ∀ block position, position / BSIZE = bn → ¬ touched position →
      (update block).get (position % BSIZE) = block.get (position % BSIZE)) :
    Growth (store.view ip)
      ((store.view ip).written ((store.view ip).address (store.icache ip).inum bn) update)
      (store.icache ip).inum touched := by
  refine ⟨fun other position untouched => ?_, fun place _ => ?_, fun _ _ => rfl,
    Dinode.Alike.refl _, rfl⟩
  · rw [editing.owned.byte_written present]
    split
    · rename_i here
      rw [unchanged _ position here.2 fun isTouched => untouched ⟨here.1, isTouched⟩, here.1,
        Volume.byte, here.2]
    · rfl
  · rw [editing.owned.blockAt_written present]

theorem Store.view_modified (store : Store) (ip : Index) (layout : Layout store.sb)
    (inPool : Pool store.sb b) (update : Block → Block) :
    (store.modified b update).view ip = (store.view ip).written b update := by
  rw [Store.view, store.volume_modified_data layout inPool.1 inPool.2]
  rfl

theorem Edited.scribbled (store : Store) (ip : Index) (b : Nat) (update : Block → Block) :
    Edited store (store.scribbled b update) ip :=
  ⟨rfl, rfl, rfl, rfl, fun _ _ => rfl⟩

/-- What the loop of `writei` has done when it stops at the offset `final`. -/
structure Wrote (tracked : Prop) (src : Source) (before after : Store) (ip : Index)
    (tot off count final : Nat) : Prop where
  editing : Editing tracked after ip
  edited : Edited before after ip
  growth : Growth (before.view ip) (after.view ip) (before.icache ip).inum
    fun position => off ≤ position ∧ position < off + count
  lower : off ≤ final
  upper : final ≤ off + count
  mapped : ∀ position, off ≤ position → position < final →
    (after.view ip).address (before.icache ip).inum (position / BSIZE) ≠ 0
  full : src.Total → final = off + count ∧ ∀ position, position < count →
    (after.view ip).byte (before.icache ip).inum (off + position) = src.byte (tot + position)

theorem get_copy_unchanged (src : Source) (tot : Nat) (atMost : copied ≤ m) (block : Block)
    (here : position / BSIZE = off / BSIZE) (untouched : ¬ (off ≤ position ∧ position < off + m)) :
    (src.copy tot off copied block).get (position % BSIZE) = block.get (position % BSIZE) := by
  have first := Nat.div_add_mod position BSIZE
  have second := Nat.div_add_mod off BSIZE
  rw [here] at first
  exact Bytes.get_splice_outside _ _ (by omega)

variable {src : Source}

section

variable (editing : Editing tracked store ip)
include editing

theorem writeiRound_wp {addr : Nat}
    (isAddr : addr = (store.view ip).address (store.icache ip).inum (off / BSIZE))
    (present : addr ≠ 0) (fits : off % BSIZE + m ≤ BSIZE) (isCopied : copied = m) :
    Wp (modifyBlock addr (src.copy tot off copied)) store
      fun _ after => Editing tracked after ip ∧ Edited store after ip ∧
        Growth (store.view ip) (after.view ip) (store.icache ip).inum
          (fun position => off ≤ position ∧ position < off + m) ∧
        ∀ position, position < m →
          (after.view ip).byte (store.icache ip).inum (off + position) = src.byte (tot + position) := by
  subst isCopied isAddr
  have inPool := editing.owned.pool_of_address present
  refine (modifyBlock_wp editing.inOp _ _).imp ?_
  rintro _ _ rfl
  have isView := store.view_modified ip editing.layout inPool (src.copy tot off copied)
  have edited := Edited.modified store ip
    ((store.view ip).address (store.icache ip).inum (off / BSIZE)) (src.copy tot off copied)
  refine ⟨editing.written edited present isView fun b isStale => Or.inl fun nothing => isStale ?_,
    edited, ?_, ?_⟩
  · rw [stale_modified]
    by_cases same : b = (store.view ip).address (store.icache ip).inum (off / BSIZE)
    · rw [same, update_self]
    · rw [update_of_ne same, nothing]
  · rw [isView]
    exact Growth.written editing present fun block position here untouched =>
      get_copy_unchanged src tot le_rfl block here untouched
  · intro position inside
    rcases sameBlock (by omega : off % BSIZE + position < BSIZE) with ⟨quotient, remainder⟩
    rw [isView, editing.owned.byte_written present, if_pos ⟨rfl, quotient⟩, remainder,
      Source.copy, Bytes.get_splice _ _ _ _ (by omega), if_pos (by omega), Nat.add_sub_cancel_left]

theorem writeiFault_wp {addr : Nat}
    (isAddr : addr = (store.view ip).address (store.icache ip).inum (off / BSIZE))
    (present : addr ≠ 0) (atMost : copied ≤ m)
    (notDirectory : (store.icache ip).dinode.type ≠ T_DIR) :
    Wp (scribble addr (src.copy tot off copied)) store
      fun _ after => Editing tracked after ip ∧ Edited store after ip ∧
        Growth (store.view ip) (after.view ip) (store.icache ip).inum
          fun position => off ≤ position ∧ position < off + m := by
  subst isAddr
  have inPool := editing.owned.pool_of_address present
  rw [scribble_wp]
  have isView := store.view_modified ip editing.layout inPool (src.copy tot off copied)
  rw [← view_scribbled] at isView
  have edited := Edited.scribbled store ip
    ((store.view ip).address (store.icache ip).inum (off / BSIZE)) (src.copy tot off copied)
  refine ⟨editing.written edited present isView fun b isStale => ?_, edited, ?_⟩
  · by_cases isBlock : b = (store.view ip).address (store.icache ip).inum (off / BSIZE)
    · exact Or.inr ⟨isBlock, notDirectory⟩
    · rw [stale_scribbled isBlock] at isStale
      exact Or.inl isStale
  · rw [isView]
    exact Growth.written editing present fun block position here untouched =>
      get_copy_unchanged src tot atMost block here untouched

/-- A loop that has nothing to do. -/
theorem Wrote.nothing (tot off : Nat) : Wrote tracked src store store ip tot off 0 off :=
  ⟨editing, Edited.refl _ _, Growth.refl _ _ _, le_rfl, le_rfl,
    fun _ behind before => absurd before (Nat.not_lt_of_le behind),
    fun _ => ⟨rfl, fun _ never => absurd never (Nat.not_lt_zero _)⟩⟩

end

theorem Wrote.afterBmap {count final : Nat} (edited : Edited store middle ip)
    (growth : Growth (store.view ip) (middle.view ip) (store.icache ip).inum fun _ => False)
    (wrote : Wrote tracked src middle after ip tot off count final) :
    Wrote tracked src store after ip tot off count final := by
  have sameInum := edited.inum
  refine ⟨wrote.editing, edited.trans wrote.edited, ?_, wrote.lower, wrote.upper, ?_, ?_⟩
  · have rest := wrote.growth
    rw [sameInum] at rest
    exact (growth.mono fun _ => False.elim).trans rest
  · rw [← sameInum]
    exact wrote.mapped
  · rw [← sameInum]
    exact wrote.full

/-- One full round, and what the loop does after it. -/
theorem Wrote.step {count final : Nat} (edited : Edited store middle ip)
    (growth : Growth (store.view ip) (middle.view ip) (store.icache ip).inum
      fun position => off ≤ position ∧ position < off + m)
    (present : (store.view ip).address (store.icache ip).inum (off / BSIZE) ≠ 0)
    (fits : off % BSIZE + m ≤ BSIZE) (bytes : ∀ position, position < m →
      (middle.view ip).byte (store.icache ip).inum (off + position) = src.byte (tot + position))
    (wrote : Wrote tracked src middle after ip (tot + m) (off + m) count final) :
    Wrote tracked src store after ip tot off (m + count) final := by
  have sameInum := edited.inum
  have rest := wrote.growth
  rw [sameInum] at rest
  refine ⟨wrote.editing, edited.trans wrote.edited,
    (growth.mono fun position inRange => ⟨inRange.1, by omega⟩).trans
      (rest.mono fun position inRange => ⟨by omega, by omega⟩),
    by have := wrote.lower; omega, by have := wrote.upper; omega, ?_, ?_⟩
  · intro position behind before
    by_cases first : position < off + m
    · have samePlace := sameBlock (by omega : off % BSIZE + (position - off) < BSIZE)
      rw [Nat.add_sub_cancel' behind] at samePlace
      rw [samePlace.1]
      exact rest.address_ne_zero (growth.address_ne_zero present)
    · have later := wrote.mapped position (by omega) before
      rwa [sameInum] at later
  · intro total
    rcases wrote.full total with ⟨atEnd, rest'⟩
    refine ⟨by omega, fun position inRange => ?_⟩
    by_cases first : position < m
    · rw [rest.byte _ _ (by omega), bytes position first]
    · have later := rest' (position - m) (by omega)
      rw [sameInum, Nat.add_assoc, Nat.add_assoc, Nat.add_sub_cancel' (Nat.le_of_not_lt first)] at later
      exact later

theorem writeiFrom_wp (editing : Editing tracked store ip) {fuel : Nat}
    (inside : off + (n - tot) ≤ MAXFILE * BSIZE) (enough : n - tot ≤ fuel)
    (kind : src.Total ∨ (store.icache ip).dinode.type ≠ T_DIR) :
    Wp (writeiFrom ip src tot off n fuel) store
      (fun final after => Wrote tracked src store after ip tot off (n - tot) final)
      (OutOfBlocks store) := by
  induction fuel generalizing store tot off with
  | zero =>
    have done : n - tot = 0 := by omega
    rw [writeiFrom, wp_pure, done]
    exact Wrote.nothing editing tot off
  | succ fuel ih =>
    simp only [writeiFrom, wp_ite]
    split
    · rename_i more
      have below : off / BSIZE < MAXFILE :=
        Nat.div_lt_of_lt_mul (by rw [Nat.mul_comm]; omega)
      have offset := Nat.mod_lt off (by decide : 0 < BSIZE)
      refine (bmap_wp editing below).seq ?_
      rintro addr middle ⟨edit, edited, growth, isAddr, present⟩
      generalize isCount : min (n - tot) (BSIZE - off % BSIZE) = m
      have atMost := src.reach_le tot m
      have sameType : (middle.icache ip).dinode.type = (store.icache ip).dinode.type := by
        exact (growth.cached edited).1.type
      have stops : ∀ stop after, OutOfBlocks middle stop after → OutOfBlocks store stop after :=
        fun stop after out => ⟨out.1, out.2.1, out.2.2.trans edited.lookups⟩
      rw [wp_ite]
      split
      · rename_i fault
        have notDirectory : (middle.icache ip).dinode.type ≠ T_DIR := by
          rcases kind with total | notDirectory
          · exact absurd (total tot m) (Nat.ne_of_lt fault)
          · rwa [sameType]
        rw [wp_bind]
        refine (writeiFault_wp edit isAddr present atMost notDirectory).total ?_
        rintro _ after ⟨edit', edited', growth'⟩
        rw [wp_pure]
        exact Wrote.afterBmap edited growth ⟨edit', edited', growth'.mono fun position inRange =>
          ⟨inRange.1, by omega⟩, le_rfl, Nat.le_add_right _ _, fun _ behind before =>
            absurd before (Nat.not_lt_of_le behind), fun total =>
              absurd (total tot m) (Nat.ne_of_lt fault)⟩
      · rename_i full
        rw [wp_bind]
        have fits : off % BSIZE + m ≤ BSIZE := by omega
        have isCopied : src.reach tot m = m := by omega
        refine (writeiRound_wp edit isAddr present fits isCopied).total ?_
        rintro _ next ⟨edit', edited', growth', bytes⟩
        have sameTypeToo : (next.icache ip).dinode.type = (middle.icache ip).dinode.type := by
          exact (growth'.cached edited').1.type
        have rest : Wp (writeiFrom ip src (tot + m) (off + m) n fuel) next _ _ :=
          ih edit' (by omega) (by omega) (by rw [sameTypeToo, sameType]; exact kind)
        refine rest.mono ?_ ?_
        · intro final after wrote
          have whole : m + (n - (tot + m)) = n - tot := by omega
          rw [← whole]
          exact Wrote.afterBmap edited growth
            (Wrote.step edited' growth' (isAddr ▸ present) fits bytes wrote)
        · intro stop after out
          exact stops stop after ⟨out.1, out.2.1, out.2.2.trans edited'.lookups⟩
    · rename_i done
      have finished : n - tot = 0 := by omega
      rw [wp_pure, finished]
      exact Wrote.nothing editing tot off

end

end Fs
end Xv6
