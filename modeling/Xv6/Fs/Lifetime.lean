import Xv6.Fs.Altered

namespace Xv6
namespace Fs

open Foundation Function Store Volume
open Buffer (Block Stop)

/-!
# The life of an inode

`iput` gives up a reference.  It frees an inode without links whose last
reference this was, and no other, so the inodes to which somebody else has a
reference stay as they are.  `ialloc` takes a free inode.  The new inode has no
links, and it is in use from the moment it is locked.
-/

/-! ## Freeing an inode -/

variable {sb : Superblock} {volume : Volume} {inum : Nat} {middle after : Store}

section

variable {store : Store} {ip : Index}

theorem Owned.replaceEmpty {dinode : Dinode}
    (owned : Owned sb volume) (empty : ∀ slot, (volume.dinodes inum).addrs slot = 0)
    (emptyStill : ∀ slot, dinode.addrs slot = 0) :
    Owned sb { volume with dinodes := update volume.dinodes inum dinode } ∧
      Volume.blockAt { volume with dinodes := update volume.dinodes inum dinode } =
        volume.blockAt := by
  have blockAt : Volume.blockAt { volume with
      dinodes := update volume.dinodes inum dinode } = volume.blockAt := by
    funext ⟨other, index⟩
    apply blockAt_congr
    · by_cases same : other = inum
      · subst same
        funext slot
        dsimp only
        rw [update_self, emptyStill, empty]
      · dsimp only
        rw [update_of_ne same]
    · rfl
  have held : Volume.held { volume with
      dinodes := update volume.dinodes inum dinode } = volume.held := by
    funext place
    exact held_congr (congrFun blockAt place)
  refine ⟨⟨?_, owned.metadata, ?_, owned.zero⟩, blockAt⟩
  · rw [held]
    exact owned.allocation
  · intro other isFree slot
    rw [held]
    by_cases same : other = inum
    · subst same
      rw [held_eq_none]
      have indirect : volume.indirect other = 0 := by
        rw [Volume.indirect, empty]
        rfl
      cases slot with
      | none => exact indirect
      | some bn =>
        rw [Volume.blockAt, Volume.address, indirect, owned.zero, empty]
        split
        · rfl
        · split
          · exact Bytes.getLE_zero _ _
          · rfl
    · dsimp only at isFree
      rw [update_of_ne same] at isFree
      exact owned.free other isFree slot

/-- What `ifree` does. -/
structure Freed (before after : Store) (ip : Index) : Prop where
  whole : Whole after
  sb : after.sb = before.sb
  inOp : after.inOp = before.inOp
  lookups : after.lookups = before.lookups
  others : ∀ other, other ≠ ip → after.icache other = before.icache other
  ref : (after.icache ip).ref = (before.icache ip).ref
  locked : (after.icache ip).locked = false
  valid : (after.icache ip).valid = false
  dinodes : ∀ other, other ≠ (before.icache ip).inum →
    after.volume.dinodes other = before.volume.dinodes other
  nodes : after.nodes = update before.nodes (before.icache ip).inum Node.free

/-- The type of a truncated inode is cleared on the disk. -/
theorem Truncated.cleared {before : Store} (truncated : Truncated True before middle ip)
    (whole : Whole before) (unlinked : (before.icache ip).dinode.nlink = 0)
    (isAfter : after = (middle.withDinode ip fun dinode => { dinode with type := 0 }).updated ip) :
    Whole after ∧ Edited before after ip ∧
      (∀ other, other ≠ (before.icache ip).inum →
        after.volume.dinodes other = before.volume.dinodes other) ∧
      after.nodes = update before.nodes (before.icache ip).inum Node.free := by
  have editing := truncated.editing
  have sameInum := truncated.edited.inum
  have inRange := editing.inRange
  have volume : after.volume = { middle.volume with
      dinodes := update middle.volume.dinodes (before.icache ip).inum
        { (middle.icache ip).dinode with type := 0 } } := by
    rw [isAfter, volume_updated]
    · rw [view_withDinode, truncated.coherent, sameInum]
    · exact editing.layout
    · rw [icache_withDinode]
      exact inRange
  have edited : Edited before after ip := by
    rw [isAfter]
    exact truncated.edited.trans ((Edited.withDinode middle ip _).trans (Edited.modified _ _ _ _))
  have onDisk : middle.volume.dinodes (before.icache ip).inum = (middle.icache ip).dinode := by
    rw [← truncated.coherent, ← sameInum, dinodes_view_self]
  have noAddrs : ∀ slot, (middle.icache ip).dinode.addrs slot = 0 := by
    intro slot
    rw [truncated.dinode]
  have owned := editing.owned
  have stale := editing.stale trivial
  rw [truncated.coherent] at owned stale
  have freed : Owned middle.sb after.volume ∧ after.volume.blockAt = middle.volume.blockAt := by
    rw [volume]
    exact owned.replaceEmpty (by rw [onDisk]; exact noAddrs) noAddrs
  rcases freed with ⟨ownedAfter, blockAt⟩
  have dinodes : ∀ other, other ≠ (before.icache ip).inum →
      after.volume.dinodes other = before.volume.dinodes other := by
    intro other different
    rw [volume]
    dsimp only
    rw [update_of_ne different]
    exact truncated.others other different
  have data : after.volume.data = before.volume.data := by
    rw [volume]
    exact truncated.data
  have self : after.volume.dinodes (before.icache ip).inum =
      { (middle.icache ip).dinode with type := 0 } := by
    rw [volume]
    exact update_self ..
  have byte := fun other (different : other ≠ (before.icache ip).inum) =>
    (byte_of_data (dinodes other different) data).2
  have sameSb : after.sb = middle.sb := by
    rw [edited.sb, truncated.edited.sb]
  have free : (after.volume.dinodes (before.icache ip).inum).type = 0 := by
    rw [self]
  refine ⟨?_, edited, dinodes, ?_⟩
  · refine whole.altered edited.sb (by rw [sameSb]; exact ownedAfter) ?_ dinodes byte ?_ ?_ ?_ ?_
    · intro b isStale
      have staleBefore : middle.stale b ≠ none := by
        rw [isAfter] at isStale
        have fewer := stale_updated isStale
        exact fewer
      rw [sameSb]
      refine ⟨(stale b staleBefore).1, ?_⟩
      intro place holds
      rw [blockAt] at holds
      have inFile := (stale b staleBefore).2 place holds
      refine ⟨?_, inFile.2⟩
      by_cases same : place.1 = (before.icache ip).inum
      · rw [same, free]
        decide
      · rw [dinodes _ same, ← truncated.others _ same]
        exact inFile.1
    · intro other different holeFree
      exact holeFree.of_data (dinodes other different) data
    · exact fun typed => absurd free typed
    · intro isDir
      rw [free] at isDir
      exact absurd isDir (by decide)
    · intro isDir
      rw [free] at isDir
      exact absurd isDir (by decide)
  · rw [nodes_altered dinodes byte]
    congr 1
    have notDir : (after.volume.dinodes (before.icache ip).inum).type ≠ T_DIR := by
      rw [free]
      decide
    have nlink : (after.volume.dinodes (before.icache ip).inum).nlink = 0 := by
      rw [self, truncated.dinode]
      exact unlinked
    rw [Store.nodes, node_of_file notDir, free, nlink]
    rfl

theorem ifree_wp (consistent : Consistent store) (held : 0 < (store.icache ip).ref)
    (valid : (store.icache ip).valid = true) (unlocked : (store.icache ip).locked = false)
    (unlinked : (store.icache ip).dinode.nlink = 0) (inOp : store.inOp = true) :
    Wp (ifree ip) store fun _ after => Freed store after ip := by
  simp only [ifree, wp_bind, wp_get, wp_ite, unlocked, Bool.false_eq_true, if_false, wp_setInode]
  generalize isFirst : store.withInode ip { store.icache ip with locked := true } = first
  have entry : first.icache ip = { store.icache ip with locked := true } := by
    rw [← isFirst, icache_withInode_self]
  have others : ∀ other, other ≠ ip → first.icache other = store.icache other := by
    intro other different
    rw [← isFirst, icache_withInode_of_ne different]
  have start : Consistent first := by
    rw [← isFirst]
    exact consistent.withFlags held held fun _ => valid
  have inOpFirst : first.inOp = true := by
    rw [← isFirst]
    exact inOp
  have heldFirst : 0 < first.refs ip := by
    rw [Store.refs, entry]
    exact held
  have lockedFirst : first.locks ip = true := by
    rw [Store.locks, entry]
  refine (itrunc_wp (start.editing heldFirst lockedFirst inOpFirst).1).mono ?_ fun _ _ => id
  intro _ second truncated
  rw [wp_setDinode]
  have inOpSecond : (second.withDinode ip fun dinode => { dinode with type := 0 }).inOp = true :=
    truncated.editing.inOp
  refine (iupdate_wp inOpSecond).mono ?_ fun _ _ => id
  intro _ third isThird
  have unlinkedFirst : (first.icache ip).dinode.nlink = 0 := by
    rw [entry]
    exact unlinked
  rcases truncated.cleared start.whole unlinkedFirst isThird with ⟨whole, edited, dinodes, nodes⟩
  have inum : (first.icache ip).inum = (store.icache ip).inum := by
    rw [entry]
  have sameStore : first.sb = store.sb ∧ first.inOp = store.inOp ∧ first.lookups = store.lookups ∧
      first.volume = store.volume := by
    rw [← isFirst]
    exact ⟨rfl, rfl, rfl, rfl⟩
  rcases sameStore with ⟨sb, sameInOp, lookups, volume⟩
  rw [inum] at dinodes nodes
  refine ⟨whole.withInode, ?_, ?_, ?_, ?_, ?_, ?_, ?_, ?_, ?_⟩
  · exact edited.sb.trans sb
  · exact edited.inOp.trans sameInOp
  · exact edited.lookups.trans lookups
  · intro other different
    rw [icache_withInode_of_ne different, edited.others other different, others other different]
  · rw [icache_withInode_self]
    dsimp only
    rw [edited.ref_eq, entry]
  · rw [icache_withInode_self]
  · rw [icache_withInode_self]
  · intro other different
    rw [volume_withInode, dinodes other different, volume]
  · rw [nodes_withInode, nodes, Store.nodes, volume]
    rfl

/-! ## Giving up a reference -/

/-- The store after `iput` of an entry to which `base` has the other
references. -/
structure Released (base : Index → Int) (before after : Store) (ip : Index) : Prop where
  consistent : Consistent after
  sb : after.sb = before.sb
  inOp : after.inOp = before.inOp
  lookups : after.lookups = before.lookups
  refs : after.refs = base
  locks : after.locks = before.locks
  entry : ∀ other, 0 < base other →
    after.icache other = { before.icache other with ref := base other }
  nodes : after.nodes = before.nodes ∨
    base ip = 0 ∧ (before.icache ip).valid = true ∧
      (before.nodes (before.icache ip).inum).nlink = 0 ∧
      after.nodes = update before.nodes (before.icache ip).inum Node.free

section

variable {base : Index → Int}

/-- The last reference to an inode that was freed goes away. -/
theorem Freed.released (freed : Freed store middle ip)
    (consistent : Consistent store) (refs : store.refs = base + Pi.single ip 1)
    (last : (store.icache ip).ref = 1) (valid : (store.icache ip).valid = true)
    (unlocked : (store.icache ip).locked = false) (unlinked : (store.icache ip).dinode.nlink = 0)
    (isAfter : after = middle.withInode ip
      { middle.icache ip with ref := (middle.icache ip).ref - 1 }) :
    Released base store after ip := by
  have held : 0 < (store.icache ip).ref := by omega
  have entry : after.icache ip = { middle.icache ip with ref := 0 } := by
    rw [isAfter, icache_withInode_self, freed.ref, last]
    rfl
  have others : ∀ other, other ≠ ip → after.icache other = store.icache other := by
    intro other different
    rw [isAfter, icache_withInode_of_ne different, freed.others other different]
  have baseOf : ∀ other, other ≠ ip → base other = store.refs other := by
    intro other different
    rw [refs, Pi.add_apply, Pi.single_eq_of_ne different, Int.add_zero]
  have baseIp : base ip = 0 := by
    have total := congrFun refs ip
    rw [Pi.add_apply, Pi.single_eq_same, Store.refs, last] at total
    omega
  have volume : after.volume = middle.volume := by
    rw [isAfter, volume_withInode]
  have sb : after.sb = store.sb := by
    rw [isAfter, sb_withInode, freed.sb]
  have dinodes : ∀ other, other ≠ (store.icache ip).inum →
      after.volume.dinodes other = store.volume.dinodes other := by
    intro other different
    rw [volume, freed.dinodes other different]
  have whole : Whole after := by
    rw [isAfter]
    exact freed.whole.withInode
  have nodes : after.nodes = update store.nodes (store.icache ip).inum Node.free := by
    rw [isAfter, nodes_withInode, freed.nodes]
  have onDisk := (consistent.agrees ip).coherent held valid
  refine ⟨⟨⟨whole, ?_, ?_⟩, ?_⟩, sb, ?_, ?_, ?_, ?_, ?_, Or.inr ⟨baseIp, valid, ?_, nodes⟩⟩
  · intro other
    by_cases same : other = ip
    · subst same
      rw [entry]
      refine ⟨Int.le_refl 0, fun _ => freed.locked, ?_, ?_, ?_, ?_⟩
      · exact fun impossible => absurd impossible (Int.lt_irrefl 0)
      · exact fun impossible => absurd impossible (Int.lt_irrefl 0)
      · exact fun impossible => absurd impossible (Int.lt_irrefl 0)
      · intro locked
        rw [freed.locked] at locked
        cases locked
    · have old := consistent.agrees other
      rw [others other same]
      refine ⟨old.counted, old.unlocked, ?_, ?_, old.typed, old.valid⟩
      · rw [sb]
        exact old.inRange
      · intro heldToo isValid
        rw [dinodes _ (consistent.inum_ne held same heldToo)]
        exact old.coherent heldToo isValid
  · intro first second heldFirst heldSecond
    have inUse : ∀ other, 0 < (after.icache other).ref → other ≠ ip := by
      intro other heldOther same
      rw [same, entry] at heldOther
      exact absurd heldOther (Int.lt_irrefl 0)
    have firstOther := inUse first heldFirst
    have secondOther := inUse second heldSecond
    rw [others first firstOther] at heldFirst ⊢
    rw [others second secondOther] at heldSecond ⊢
    exact consistent.single first second heldFirst heldSecond
  · intro inum typed withoutLinks
    by_cases same : inum = (store.icache ip).inum
    · subst same
      have free : (after.nodes (store.icache ip).inum).type = 0 := by
        rw [nodes, update_self]
        rfl
      exact absurd free typed
    · rw [dinodes inum same] at typed withoutLinks
      rcases consistent.collected inum typed withoutLinks with ⟨other, heldOther, isValid, isInum⟩
      have different : other ≠ ip := by
        intro isIp
        rw [isIp] at isInum
        exact same isInum.symm
      refine ⟨other, ?_⟩
      rw [others other different]
      exact ⟨heldOther, isValid, isInum⟩
  · rw [isAfter, inOp_withInode, freed.inOp]
  · rw [isAfter, lookups_withInode, freed.lookups]
  · funext other
    by_cases same : other = ip
    · subst same
      rw [Store.refs, entry, baseIp]
    · rw [Store.refs, others other same, baseOf other same, Store.refs]
  · funext other
    by_cases same : other = ip
    · subst same
      rw [Store.locks, entry, Store.locks, unlocked]
      exact freed.locked
    · rw [Store.locks, others other same, Store.locks]
  · intro other positive
    have different : other ≠ ip := by
      intro same
      rw [same, baseIp] at positive
      exact absurd positive (Int.lt_irrefl 0)
    rw [others other different, baseOf other different, Store.refs]
  · show (store.volume.dinodes (store.icache ip).inum).nlink = 0
    rw [← onDisk]
    exact unlinked

variable (consistent : Consistent store) (refs : store.refs = base + Pi.single ip 1)
  (nonneg : 0 ≤ base ip)
include consistent refs nonneg

/-- A reference goes away, and the inode stays. -/
theorem Consistent.released (unlocked : base ip = 0 → (store.icache ip).locked = false)
    (linked : ¬ ((store.icache ip).ref = 1 ∧ (store.icache ip).valid = true ∧
      (store.icache ip).dinode.nlink = 0)) (isAfter : after = store.withInode ip
      { store.icache ip with ref := (store.icache ip).ref - 1 }) :
    Released base store after ip := by
  have total : (store.icache ip).ref = base ip + 1 := by
    have atIp := congrFun refs ip
    rwa [Pi.add_apply, Pi.single_eq_same] at atIp
  have held : 0 < (store.icache ip).ref := by omega
  have old := consistent.agrees ip
  have entry : after.icache ip = { store.icache ip with ref := base ip } := by
    rw [isAfter, icache_withInode_self, total, Int.add_sub_cancel]
  have others : ∀ other, other ≠ ip → after.icache other = store.icache other := by
    intro other different
    rw [isAfter, icache_withInode_of_ne different]
  have baseOf : ∀ other, other ≠ ip → base other = store.refs other := by
    intro other different
    rw [refs, Pi.add_apply, Pi.single_eq_of_ne different, Int.add_zero]
  have isAfterBase : after = store.withInode ip { store.icache ip with ref := base ip } := by
    rw [isAfter, total, Int.add_sub_cancel]
  refine ⟨?_, ?_, ?_, ?_, ?_, ?_, ?_, Or.inl ?_⟩
  · rw [isAfterBase]
    refine consistent.withInode ⟨nonneg, unlocked, fun _ => old.inRange held,
      fun _ => old.coherent held, fun _ => old.typed held, old.valid⟩ ?_ ?_
    · intro _ other different heldToo
      exact consistent.inum_ne held different heldToo
    · intro _ valid unlinked
      refine ⟨?_, valid, rfl⟩
      rcases Int.lt_or_eq_of_le nonneg with more | last
      · exact more
      · rw [← old.coherent held valid] at unlinked
        exact absurd ⟨by omega, valid, unlinked⟩ linked
  · rw [isAfter, sb_withInode]
  · rw [isAfter, inOp_withInode]
  · rw [isAfter, lookups_withInode]
  · funext other
    by_cases same : other = ip
    · subst same
      rw [Store.refs, entry]
    · rw [Store.refs, others other same, baseOf other same, Store.refs]
  · funext other
    by_cases same : other = ip
    · subst same
      rw [Store.locks, entry, Store.locks]
    · rw [Store.locks, others other same, Store.locks]
  · intro other positive
    by_cases same : other = ip
    · subst same
      exact entry
    · rw [others other same, baseOf other same, Store.refs]
  · rw [isAfter, nodes_withInode]

/-- `iput` gives up one reference.  It frees the inode if this was the last one
and there are no links. -/
theorem iput_wp (unlocked : base ip = 0 → store.locks ip = false) (inOp : store.inOp = true) :
    Wp (iput ip) store fun _ after => Released base store after ip := by
  simp only [iput, wp_bind, wp_get]
  split
  · rename_i last
    rcases last with ⟨last, valid, unlinked⟩
    have baseIp : base ip = 0 := by
      have atIp := congrFun refs ip
      rw [Pi.add_apply, Pi.single_eq_same, Store.refs, last] at atIp
      omega
    have isUnlocked := unlocked baseIp
    rw [wp_bind]
    refine (ifree_wp consistent (by omega) valid isUnlocked unlinked inOp).mono ?_ fun _ _ => id
    intro _ middle freed
    rw [wp_setInode]
    exact freed.released consistent refs last valid isUnlocked unlinked rfl
  · rename_i linked
    rw [wp_setInode]
    exact consistent.released refs nonneg unlocked linked rfl

theorem iunlockput_wp (locked : store.locks ip = true) (inOp : store.inOp = true) :
    Wp (iunlockput ip) store fun _ after => Released base (store.unlocking ip) after ip := by
  have held : 0 < (store.icache ip).ref := by
    have atIp := congrFun refs ip
    rw [Pi.add_apply, Pi.single_eq_same, Store.refs] at atIp
    omega
  rw [iunlockput, wp_bind]
  refine (iunlock_wp held locked).mono ?_ fun _ _ => id
  intro _ middle isMiddle
  subst isMiddle
  apply iput_wp (consistent.unlocking held) _ nonneg _ inOp
  · rw [refs_unlocking, refs]
  · intro _
    rw [locks_unlocking, update_self]

end

end

/-! ## Allocating an inode -/

variable {type : BitVec 16}

section

variable {store : Store} {ip : Index}

/-- The store after `ialloc`.  The new inode has no links, and its copy in the
cache has not been read. -/
structure Allocated (before after : Store) (ip : Index) (type : BitVec 16) : Prop where
  intact : Intact after
  collected : ∀ inum, inum ≠ (after.icache ip).inum → Collected before inum → Collected after inum
  nonzero : (after.icache ip).inum ≠ 0
  inRange : (after.icache ip).inum < before.sb.ninodes
  unused : (before.nodes (after.icache ip).inum).type = 0
  unread : (after.icache ip).valid = false ∧ (after.icache ip).locked = false
  sb : after.sb = before.sb
  inOp : after.inOp = before.inOp
  lookups : after.lookups = before.lookups
  refs : after.refs = before.refs + Pi.single ip 1
  locks : after.locks = before.locks
  entry : ∀ other, 0 < before.refs other →
    after.icache other = { before.icache other with ref := after.refs other }
  nodes : after.nodes = update before.nodes (after.icache ip).inum ⟨type, 0, []⟩

theorem Owned.addrs_of_free (owned : Owned sb volume) (free : (volume.dinodes inum).type = 0)
    (slot : Fin (NDIRECT + 1)) : (volume.dinodes inum).addrs slot = 0 := by
  have zero : ((volume.dinodes inum).addrs slot).toNat = 0 := by
    by_cases isIndirect : slot = indirectSlot
    · have empty := held_eq_none.mp (owned.free inum free none)
      rw [isIndirect]
      exact empty
    · have direct := val_lt_of_ne_indirectSlot isIndirect
      have empty := held_eq_none.mp (owned.free inum free (some slot.val))
      rw [Volume.blockAt, address_direct _ _ direct, Fin.ofNat_val_eq_self] at empty
      exact empty
  exact BitVec.eq_of_toNat_eq zero

/-- A free inode is cleared and gets a type. -/
theorem Intact.cleared (intact : Intact store) (type : BitVec 16)
    (inRange : inum < store.sb.ninodes) (free : (store.volume.dinodes inum).type = 0)
    (isAfter : after = store.modified (store.sb.IBLOCK inum) (Dinode.clear type (inum % IPB))) :
    Intact after ∧ (∀ other, other ≠ inum → Collected store other → Collected after other) ∧
      after.nodes = update store.nodes inum ⟨type, 0, []⟩ := by
  have slot : inum % IPB < IPB := Nat.mod_lt _ (by decide)
  have volume : after.volume = { store.volume with
      dinodes := update store.volume.dinodes inum (Dinode.fresh type) } := by
    rw [isAfter]
    exact volume_modified_iblock intact.whole.layout inRange
      (fun block => Dinode.decode_clear type slot block)
      (fun block other different => Dinode.decode_clear_of_ne type different block)
  have icache : after.icache = store.icache := by
    rw [isAfter]
    rfl
  have sb : after.sb = store.sb := by
    rw [isAfter]
    rfl
  have owned : Owned store.sb after.volume ∧ after.volume.blockAt = store.volume.blockAt := by
    rw [volume]
    exact intact.whole.owned.replaceEmpty (intact.whole.owned.addrs_of_free free) fun _ => rfl
  rcases owned with ⟨owned, blockAt⟩
  have self : after.volume.dinodes inum = Dinode.fresh type := by
    rw [volume]
    exact update_self ..
  have dinodes : ∀ other, other ≠ inum →
      after.volume.dinodes other = store.volume.dinodes other := by
    intro other different
    rw [volume]
    exact update_of_ne different ..
  have data : after.volume.data = store.volume.data := by
    rw [volume]
  have byte := fun other (different : other ≠ inum) =>
    (byte_of_data (dinodes other different) data).2
  have size : (after.volume.dinodes inum).size = 0 := by
    rw [self]
    rfl
  have noEntries : after.volume.entries inum = [] := by
    rw [Volume.entries, size]
    rfl
  have whole : Whole after := by
    refine intact.whole.altered sb (by rw [sb]; exact owned) ?_ dinodes byte
      (fun other different holeFree => holeFree.of_data (dinodes other different) data)
      (fun _ => holeFree_of_empty size) ?_ ?_
    · intro b isStale
      have staleBefore : store.stale b ≠ none := by
        intro fresh
        apply isStale
        rw [isAfter, stale_modified]
        by_cases same : b = store.sb.IBLOCK inum
        · rw [same, update_self]
        · rw [update_of_ne same]
          exact fresh
      rcases intact.whole.stale b staleBefore with ⟨inPool, inFiles⟩
      rw [sb]
      refine ⟨inPool, ?_⟩
      intro place holds
      rw [blockAt] at holds
      have different : place.1 ≠ inum := by
        intro same
        have empty := intact.whole.owned.free inum free place.2
        rw [← same, held_eq_none] at empty
        exact pool_ne_zero inPool (by rw [← holds]; exact empty)
      rw [dinodes _ different]
      exact inFiles place holds
    · intro _
      rw [size]
      rfl
    · intro _ entry member
      rw [noEntries] at member
      cases member
  have unread : ∀ ip, 0 < (store.icache ip).ref → (store.icache ip).valid = true →
      (store.icache ip).inum ≠ inum := by
    intro ip held valid same
    apply (intact.agrees ip).typed held valid
    rw [(intact.agrees ip).coherent held valid, same]
    exact free
  refine ⟨⟨whole, ?_, ?_⟩, ?_, ?_⟩
  · intro ip
    have entry := intact.agrees ip
    rw [icache]
    refine ⟨entry.counted, entry.unlocked, ?_, ?_, entry.typed, entry.valid⟩
    · rw [sb]
      exact entry.inRange
    · intro held valid
      rw [dinodes _ (unread ip held valid)]
      exact entry.coherent held valid
  · rw [icache]
    exact intact.single
  · intro other different collected typed unlinked
    rw [dinodes other different] at typed unlinked
    rcases collected typed unlinked with ⟨ip, referenced⟩
    refine ⟨ip, ?_⟩
    rw [icache]
    exact referenced
  · rw [nodes_altered dinodes byte]
    congr 1
    refine Node.ext ?_ ?_ ?_
    · show (after.volume.dinodes inum).type = type
      rw [self]
      rfl
    · show (after.volume.dinodes inum).nlink = 0
      rw [self]
      rfl
    · rw [Store.nodes, Volume.node, noEntries]
      exact ite_self []

theorem iallocFrom_wp {fuel : Nat} (intact : Intact store)
    (inOp : store.inOp = true) (started : inum ≠ 0) (enough : inum + fuel ≤ store.sb.ninodes) :
    Wp (iallocFrom type inum fuel) store (fun ip after => Allocated store after ip type)
      fun stop after => (stop = .panic .iallocNoInodes ∨ stop = .panic .igetNoInodes) ∧
        after.lookups = store.lookups := by
  induction fuel generalizing inum with
  | zero =>
    rw [iallocFrom, wp_throw]
    exact ⟨Or.inl rfl, rfl⟩
  | succ fuel ih =>
    have inRange : inum < store.sb.ninodes := by omega
    simp only [iallocFrom, bread, wp_bind, wp_get, wp_pure, wp_ite, ← dinodes_of_lt inRange]
    split
    · rename_i free
      refine (modifyBlock_wp inOp _ _).total ?_
      intro _ middle isMiddle
      rcases intact.cleared type inRange free isMiddle with ⟨cleared, collected, nodes⟩
      have icache : middle.icache = store.icache := by
        rw [isMiddle]
        rfl
      have same : middle.sb = store.sb ∧ middle.inOp = store.inOp ∧
          middle.lookups = store.lookups := by
        rw [isMiddle]
        exact ⟨rfl, rfl, rfl⟩
      rcases same with ⟨sb, sameInOp, lookups⟩
      have refs : middle.refs = store.refs := by
        funext other
        rw [Store.refs, icache, Store.refs]
      have locks : middle.locks = store.locks := by
        funext other
        rw [Store.locks, icache, Store.locks]
      refine (iget_wp cleared (by rw [sb]; exact inRange)).mono ?_ ?_
      · intro ip after got
        have sameAfter : after.sb = middle.sb ∧ after.inOp = middle.inOp ∧
            after.lookups = middle.lookups := by
          rw [got.store]
          exact ⟨rfl, rfl, rfl⟩
        rcases sameAfter with ⟨sbAfter, inOpAfter, lookupsAfter⟩
        rw [← got.inum] at collected nodes started inRange free
        refine ⟨got.intact, ?_, started, inRange, free, ?_, sbAfter.trans sb,
          inOpAfter.trans sameInOp, lookupsAfter.trans lookups, ?_, ?_, ?_, ?_⟩
        · intro other different before
          exact got.collected other (collected other different before)
        · rcases Int.lt_or_eq_of_le (cleared.agrees ip).counted with held | empty
          · have unread : (store.icache ip).valid = false := by
              cases valid : (store.icache ip).valid with
              | false => rfl
              | true =>
                rw [icache] at held
                have sameInum : (after.icache ip).inum = (store.icache ip).inum := by
                  rw [got.hit (by rw [icache]; exact held), icache]
                rw [sameInum, ← (intact.agrees ip).coherent held valid] at free
                exact absurd free ((intact.agrees ip).typed held valid)
            rw [got.hit held, icache]
            refine ⟨unread, ?_⟩
            cases locked : (store.icache ip).locked with
            | false => rfl
            | true =>
              rw [(intact.agrees ip).valid locked] at unread
              cases unread
          · exact got.miss empty.symm
        · rw [got.refs, refs]
        · rw [got.locks cleared, locks]
        · intro other held
          rw [← refs] at held
          rw [got.entry other held, icache]
        · rw [got.nodes, nodes]
      · intro stop after stopped
        rw [stopped.2.1]
        exact ⟨Or.inr stopped.1, lookups⟩
    · exact ih (Nat.succ_ne_zero inum) (by omega)

theorem ialloc_wp (intact : Intact store) (inOp : store.inOp = true) :
    Wp (ialloc type) store (fun ip after => Allocated store after ip type)
      fun stop after => (stop = .panic .iallocNoInodes ∨ stop = .panic .igetNoInodes) ∧
        after.lookups = store.lookups := by
  have some : ROOTINO < store.sb.ninodes := intact.whole.layout.root
  have one : ROOTINO = 1 := rfl
  rw [ialloc, wp_bind, wp_get]
  exact iallocFrom_wp intact inOp Nat.one_ne_zero (by omega)

/-- The new inode is in use once it is locked. -/
theorem Allocated.locking
    (allocated : Allocated store after ip type) (consistent : Consistent store) (typed : type ≠ 0) :
    Consistent (after.locking ip) ∧ (after.locking ip).locks = update store.locks ip true ∧
      (after.locking ip).refs = store.refs + Pi.single ip 1 := by
  have held : 0 < (after.icache ip).ref := by
    have atIp := congrFun allocated.refs ip
    have counted : 0 ≤ store.refs ip := (consistent.agrees ip).counted
    rw [Pi.add_apply, Pi.single_eq_same, Store.refs] at atIp
    omega
  have onDisk : (after.nodes (after.icache ip).inum).type = type := by
    rw [allocated.nodes, update_self]
  refine ⟨⟨allocated.intact.locking held (by rw [← onDisk] at typed; exact typed), ?_⟩, ?_, ?_⟩
  · intro inum typed unlinked
    by_cases same : inum = (after.icache ip).inum
    · refine ⟨ip, ?_⟩
      rw [Store.locking, icache_withInode_self]
      exact ⟨held, rfl, same.symm⟩
    · apply (allocated.collected inum same (consistent.collected inum) typed unlinked).withInode
      intro _ _ isInum
      exact absurd isInum.symm same
  · rw [locks_locking, allocated.locks]
  · rw [refs_locking, allocated.refs]

end

end Fs
end Xv6
