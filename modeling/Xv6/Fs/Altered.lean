import Xv6.Fs.Consistent

namespace Xv6
namespace Fs

open Foundation Function Store Volume
open Buffer (Block Stop)

/-!
# Changing one inode of a consistent store

The calls change an inode that they have locked, bring it to the disk, and
leave all others alone.  Each such change replaces one node and keeps the store
consistent: `writei` and `itrunc` of a file change no node at all, an entry is
written into a directory, the link count is assigned.
-/

/-! ## What an alteration leaves alone -/

/-- One inode was changed, and its node is now the given one. -/
structure Altered (before after : Store) (ip : Index) (node : Node) : Prop where
  consistent : Consistent after
  edited : Edited before after ip
  nodes : after.nodes = update before.nodes (before.icache ip).inum node

variable {inum : Nat}

section

variable {before after : Store} {ip : Index}

namespace Edited

variable (edited : Edited before after ip)
include edited

theorem entry_eq (other : Index) : after.icache other =
    { before.icache other with dinode := (after.icache other).dinode } := by
  by_cases same : other = ip
  · subst same
    rw [← edited.entry]
  · rw [edited.others other same]

theorem ref_eq (other : Index) : (after.icache other).ref = (before.icache other).ref := by
  rw [edited.entry_eq other]

theorem inum_eq (other : Index) : (after.icache other).inum = (before.icache other).inum := by
  rw [edited.entry_eq other]

theorem valid_eq (other : Index) : (after.icache other).valid = (before.icache other).valid := by
  rw [edited.entry_eq other]

theorem refs : after.refs = before.refs :=
  funext edited.ref_eq

theorem locks : after.locks = before.locks := by
  funext other
  rw [Store.locks, edited.entry_eq other, Store.locks]

end Edited

theorem Whole.altered (whole : Whole before) (sb : after.sb = before.sb)
    (owned : Owned after.sb after.volume) (stale : StaleInFiles after after.volume)
    (dinodes : ∀ other, other ≠ inum → after.volume.dinodes other = before.volume.dinodes other)
    (byte : ∀ other, other ≠ inum → ∀ position,
      after.volume.byte other position = before.volume.byte other position)
    (holeFree : ∀ other, other ≠ inum → HoleFree before.volume other → HoleFree after.volume other)
    (self : (after.volume.dinodes inum).type ≠ 0 → HoleFree after.volume inum)
    (aligned : (after.volume.dinodes inum).type = T_DIR →
      (after.volume.dinodes inum).size.toNat % direntSize = 0)
    (numbered : (after.volume.dinodes inum).type = T_DIR →
      ∀ entry ∈ after.volume.entries inum, entry.inum < before.sb.ninodes) : Whole after := by
  refine ⟨by rw [sb]; exact whole.layout, owned, ?_, stale, ?_, ?_⟩
  · intro other typed
    by_cases same : other = inum
    · subst same
      exact self typed
    · rw [dinodes other same] at typed
      exact holeFree other same (whole.holeFree other typed)
  · intro other isDir
    by_cases same : other = inum
    · subst same
      exact aligned isDir
    · rw [dinodes other same] at isDir ⊢
      exact whole.aligned other isDir
  · intro other isDir
    rw [sb]
    by_cases same : other = inum
    · subst same
      exact numbered isDir
    · rw [dinodes other same] at isDir
      have sameSize := congrArg Dinode.size (dinodes other same)
      rw [entries_congr sameSize (byte other same)]
      exact whole.numbered other isDir

theorem nodes_altered
    (dinodes : ∀ other, other ≠ inum → after.volume.dinodes other = before.volume.dinodes other)
    (byte : ∀ other, other ≠ inum → ∀ position,
      after.volume.byte other position = before.volume.byte other position) :
    after.nodes = update before.nodes inum (after.nodes inum) := by
  funext other
  by_cases same : other = inum
  · subst same
    rw [update_self]
  · rw [update_of_ne same]
    exact node_congr (dinodes other same) (byte other same)

theorem Intact.altered (intact : Intact before) (held : 0 < (before.icache ip).ref)
    (edited : Edited before after ip) (whole : Whole after)
    (dinodes : ∀ other, other ≠ (before.icache ip).inum →
      after.volume.dinodes other = before.volume.dinodes other)
    (agrees : Agrees after (after.icache ip)) : Intact after := by
  refine ⟨whole, ?_, ?_⟩
  · intro other
    by_cases same : other = ip
    · subst same
      exact agrees
    · have entry := intact.agrees other
      rw [edited.others other same]
      refine ⟨entry.counted, entry.unlocked, ?_, ?_, entry.typed, entry.valid⟩
      · rw [edited.sb]
        exact entry.inRange
      · intro heldToo valid
        rw [dinodes _ (intact.inum_ne held same heldToo)]
        exact entry.coherent heldToo valid
  · intro first second
    rw [edited.ref_eq, edited.ref_eq, edited.inum_eq, edited.inum_eq]
    exact intact.single first second

theorem Referenced.edited (edited : Edited before after ip)
    (referenced : Referenced before inum) : Referenced after inum := by
  rcases referenced with ⟨other, held, valid, isInum⟩
  refine ⟨other, ?_⟩
  rw [edited.ref_eq, edited.valid_eq, edited.inum_eq]
  exact ⟨held, valid, isInum⟩

variable (consistent : Consistent before) (held : 0 < before.refs ip)
  (locked : before.locks ip = true)
include consistent held locked

theorem Consistent.altered (edited : Edited before after ip)
    (editing : Editing True after ip) (coherent : after.view ip = after.volume)
    (dinodes : ∀ other, other ≠ (before.icache ip).inum →
      after.volume.dinodes other = before.volume.dinodes other)
    (byte : ∀ other, other ≠ (before.icache ip).inum → ∀ position,
      after.volume.byte other position = before.volume.byte other position)
    (holeFree : ∀ other, other ≠ (before.icache ip).inum → HoleFree before.volume other →
      HoleFree after.volume other)
    (self : HoleFree after.volume (before.icache ip).inum)
    (aligned : (after.icache ip).dinode.type = T_DIR →
      (after.icache ip).dinode.size.toNat % direntSize = 0)
    (numbered : (after.icache ip).dinode.type = T_DIR →
      ∀ entry ∈ after.volume.entries (before.icache ip).inum, entry.inum < before.sb.ninodes) :
    Altered before after ip (after.nodes (before.icache ip).inum) := by
  have owned := editing.owned
  have stale := editing.stale trivial
  rw [coherent] at owned stale
  have onDisk : after.volume.dinodes (before.icache ip).inum = (after.icache ip).dinode := by
    rw [← coherent, ← edited.inum, dinodes_view_self]
  have valid := (consistent.agrees ip).valid locked
  have whole : Whole after := by
    refine consistent.whole.altered edited.sb owned stale dinodes byte holeFree (fun _ => self) ?_ ?_
    · rw [onDisk]
      exact aligned
    · rw [onDisk]
      exact numbered
  have agrees : Agrees after (after.icache ip) := by
    refine ⟨?_, ?_, fun _ => editing.inRange, ?_, fun _ _ => editing.typed, ?_⟩
    · rw [edited.ref_eq]
      exact Int.le_of_lt held
    · intro zero
      rw [edited.ref_eq] at zero
      exact absurd zero (Int.ne_of_gt held)
    · intro _ _
      rw [edited.inum_eq, onDisk]
    · intro _
      rw [edited.valid_eq]
      exact valid
  refine ⟨⟨consistent.toIntact.altered held edited whole dinodes agrees, ?_⟩, edited,
    nodes_altered dinodes byte⟩
  intro inum typed unlinked
  by_cases same : inum = (before.icache ip).inum
  · refine Referenced.edited edited ⟨ip, held, valid, same.symm⟩
  · rw [dinodes inum same] at typed unlinked
    exact Referenced.edited edited (consistent.collected inum typed unlinked)

theorem Consistent.editing (inOp : before.inOp = true) :
    Editing True before ip ∧ before.view ip = before.volume ∧
      HoleFree before.volume (before.icache ip).inum := by
  have entry := consistent.agrees ip
  have valid := entry.valid locked
  have coherent := entry.coherent held valid
  have typed := entry.typed held valid
  have view := view_eq_volume coherent
  have onDisk : (before.volume.dinodes (before.icache ip).inum).type ≠ 0 := by
    rw [← coherent]
    exact typed
  refine ⟨⟨consistent.whole.layout, inOp, entry.inRange held, typed, ?_, ?_⟩, view,
    consistent.whole.holeFree _ onDisk⟩
  · rw [view]
    exact consistent.whole.owned
  · intro _
    rw [view]
    exact consistent.whole.stale

end

/-! ## Alterations -/

variable {first second : Volume}

section

variable {store after : Store} {ip : Index}

theorem Store.nodes_of_file (isFile : (store.nodes inum).type ≠ T_DIR) :
    store.nodes inum = ⟨(store.nodes inum).type, (store.nodes inum).nlink, []⟩ :=
  node_of_file isFile

theorem Intact.nodes_eq (intact : Intact store) (held : 0 < store.refs ip)
    (locked : store.locks ip = true) :
    (store.nodes (store.icache ip).inum).type = (store.icache ip).dinode.type ∧
      (store.nodes (store.icache ip).inum).nlink = (store.icache ip).dinode.nlink := by
  rw [(intact.agrees ip).coherent held ((intact.agrees ip).valid locked)]
  exact ⟨rfl, rfl⟩

theorem Edited.onDisk (edited : Edited store after ip) (coherent : after.view ip = after.volume) :
    after.volume.dinodes (store.icache ip).inum = (after.icache ip).dinode := by
  rw [← coherent, ← edited.inum, dinodes_view_self]

namespace Written

variable {src : Source} {off n : Nat} (written : Written True src store after ip off n)
include written

theorem byte_of_ne (other : Nat) (different : other ≠ (store.icache ip).inum) (position : Nat) :
    after.volume.byte other position = store.volume.byte other position :=
  written.byte other position fun inside => different inside.1

theorem holeFree_of_ne (other : Nat)
    (different : other ≠ (store.icache ip).inum) (holeFree : HoleFree store.volume other) :
    HoleFree after.volume other :=
  holeFree.kept (written.others other different) written.kept

/-- Writing to a file changes no node. -/
theorem file (consistent : Consistent store)
    (held : 0 < store.refs ip) (locked : store.locks ip = true)
    (isFile : (store.nodes (store.icache ip).inum).type ≠ T_DIR) :
    Altered store after ip (store.nodes (store.icache ip).inum) := by
  rcases consistent.nodes_eq held locked with ⟨type, nlink⟩
  have onDisk := written.edited.onDisk written.coherent
  have fileStill : (after.icache ip).dinode.type ≠ T_DIR := by
    rw [written.alike.type, ← type]
    exact isFile
  have altered := consistent.altered held locked written.edited written.editing written.coherent
    written.others written.byte_of_ne written.holeFree_of_ne written.holeFree
    (fun isDir => absurd isDir fileStill) (fun isDir => absurd isDir fileStill)
  have same : after.nodes (store.icache ip).inum = store.nodes (store.icache ip).inum := by
    rw [nodes_of_file isFile, Store.nodes, node_of_file (by rw [onDisk]; exact fileStill),
      onDisk, written.alike.type, written.alike.nlink, type, nlink]
  rw [same] at altered
  exact altered

end Written

/-- Writing an entry of a directory. -/
theorem Written.put {index : Nat} {entry : Dirent}
    (written : Written True (.kernel entry.bytes) store after ip (direntSize * index) direntSize)
    (consistent : Consistent store) (held : 0 < store.refs ip) (locked : store.locks ip = true)
    (isDir : (store.nodes (store.icache ip).inum).type = T_DIR) (fits : entry.Fits)
    (inRange : entry.inum < store.sb.ninodes)
    (inside : index ≤ (store.nodes (store.icache ip).inum).entries.length) :
    Altered store after ip { store.nodes (store.icache ip).inum with
      entries := putEntry (store.nodes (store.icache ip).inum).entries index entry } := by
  have directory := consistent.directory held locked isDir
  rcases consistent.nodes_eq held locked with ⟨type, nlink⟩
  have onDisk := written.edited.onDisk written.coherent
  have isList := directory.entries_eq
  rw [← isList] at inside
  have entries := written.entries directory.coherent directory.aligned fits inside
  have put : after.volume.entries (store.icache ip).inum =
      putEntry (store.nodes (store.icache ip).inum).entries index entry := by
    rw [entries, ← isList]
    rfl
  have isDirStill : (after.volume.dinodes (store.icache ip).inum).type = T_DIR := by
    rw [onDisk, written.alike.type, ← type]
    exact isDir
  have altered := consistent.altered held locked written.edited written.editing written.coherent
    written.others written.byte_of_ne written.holeFree_of_ne written.holeFree ?_ ?_
  · have node : after.nodes (store.icache ip).inum = { store.nodes (store.icache ip).inum with
        entries := putEntry (store.nodes (store.icache ip).inum).entries index entry } := by
      refine Node.ext ?_ ?_ ?_
      · rw [isDir]
        exact isDirStill
      · rw [nlink, ← written.alike.nlink, ← onDisk]
        rfl
      · rw [Store.nodes, entries_node isDirStill, put]
    rw [node] at altered
    exact altered
  · intro _
    rcases written.size with ⟨final, _, isSize, isFinal⟩
    have aligned := directory.aligned
    have sixteen : direntSize = 16 := rfl
    rw [isSize, isFinal (Source.total_kernel _)]
    rw [sixteen] at aligned ⊢
    omega
  · intro _ other member
    rw [put] at member
    rcases List.mem_append.mp member with front | back
    · exact consistent.entry_lt (List.mem_of_mem_take front)
    · rcases List.mem_cons.mp back with isNew | rest
      · rw [isNew]
        exact inRange
      · exact consistent.entry_lt (List.mem_of_mem_drop rest)

theorem Volume.byte_of_data
    (dinode : second.dinodes inum = first.dinodes inum) (data : second.data = first.data) :
    (∀ bn, second.address inum bn = first.address inum bn) ∧
      ∀ position, second.byte inum position = first.byte inum position := by
  have address : ∀ bn, second.address inum bn = first.address inum bn := by
    intro bn
    simp only [Volume.address, Volume.indirect, dinode, data]
  refine ⟨address, ?_⟩
  intro position
  rw [Volume.byte, address, data, Volume.byte]

theorem HoleFree.of_data (holeFree : HoleFree first inum)
    (dinode : second.dinodes inum = first.dinodes inum) (data : second.data = first.data) :
    HoleFree second inum := by
  have address := (byte_of_data dinode data).1
  refine ⟨by rw [dinode]; exact holeFree.bounded, ?_⟩
  intro bn below
  rw [dinode] at below
  rw [address]
  exact holeFree.mapped bn below

theorem holeFree_of_empty {volume : Volume}
    (empty : (volume.dinodes inum).size = 0) : HoleFree volume inum := by
  constructor
  · rw [empty]
    exact Nat.zero_le _
  · intro bn below
    rw [empty] at below
    exact absurd below (Nat.not_lt_zero _)

/-- Truncating a file changes no node. -/
theorem Truncated.file (truncated : Truncated True store after ip) (consistent : Consistent store)
    (held : 0 < store.refs ip) (locked : store.locks ip = true)
    (isFile : (store.nodes (store.icache ip).inum).type ≠ T_DIR) :
    Altered store after ip (store.nodes (store.icache ip).inum) := by
  rcases consistent.nodes_eq held locked with ⟨type, nlink⟩
  have onDisk := truncated.edited.onDisk truncated.coherent
  have sameType : (after.icache ip).dinode.type = (store.icache ip).dinode.type := by
    rw [truncated.dinode]
  have sameNlink : (after.icache ip).dinode.nlink = (store.icache ip).dinode.nlink := by
    rw [truncated.dinode]
  have fileStill : (after.icache ip).dinode.type ≠ T_DIR := by
    rw [sameType, ← type]
    exact isFile
  have altered := consistent.altered held locked truncated.edited truncated.editing
    truncated.coherent truncated.others
    (fun other different => (byte_of_data (truncated.others other different) truncated.data).2)
    (fun other different holeFree => holeFree.of_data (truncated.others other different)
      truncated.data)
    (holeFree_of_empty (by rw [onDisk, truncated.dinode]))
    (fun isDir => absurd isDir fileStill) (fun isDir => absurd isDir fileStill)
  have same : after.nodes (store.icache ip).inum = store.nodes (store.icache ip).inum := by
    rw [nodes_of_file isFile, Store.nodes, node_of_file (by rw [onDisk]; exact fileStill),
      onDisk, sameType, sameNlink, type, nlink]
  rw [same] at altered
  exact altered

/-- Assigning to the link count and the device numbers, and `iupdate`. -/
theorem Consistent.assign (consistent : Consistent store) (held : 0 < store.refs ip)
    (locked : store.locks ip = true) (inOp : store.inOp = true) {update : Dinode → Dinode}
    (sameType : ∀ dinode, (update dinode).type = dinode.type)
    (sameSize : ∀ dinode, (update dinode).size = dinode.size)
    (sameAddrs : ∀ dinode, (update dinode).addrs = dinode.addrs) :
    Altered store ((store.withDinode ip update).updated ip) ip
      { store.nodes (store.icache ip).inum with
        nlink := (update (store.icache ip).dinode).nlink } := by
  rcases consistent.editing held locked inOp with ⟨editing, view, holeFree⟩
  have assigned := editing.withDinode sameAddrs sameType
  have coherent := view_updated assigned.layout assigned.inRange
  have volume := volume_updated assigned.layout assigned.inRange
  have edited : Edited store ((store.withDinode ip update).updated ip) ip :=
    (Edited.withDinode store ip update).trans (Edited.modified _ _ _ _)
  have onDisk := edited.onDisk coherent
  rw [icache_updated, icache_withDinode] at onDisk
  have cached := (consistent.agrees ip).coherent held ((consistent.agrees ip).valid locked)
  have dinodes : ∀ other, other ≠ (store.icache ip).inum →
      ((store.withDinode ip update).updated ip).volume.dinodes other =
        store.volume.dinodes other := by
    intro other different
    rw [volume, dinodes_view_of_ne (by rw [icache_withDinode]; exact different), volume_withDinode]
  have data : ((store.withDinode ip update).updated ip).volume.data = store.volume.data := by
    rw [volume]
    rfl
  have byte : ((store.withDinode ip update).updated ip).volume.byte = store.volume.byte := by
    rw [volume, byte_withDinode sameAddrs, view]
  have blockAt : ((store.withDinode ip update).updated ip).volume.blockAt =
      store.volume.blockAt := by
    rw [volume, blockAt_withDinode sameAddrs, view]
  have entries : ((store.withDinode ip update).updated ip).volume.entries (store.icache ip).inum =
      store.volume.entries (store.icache ip).inum := by
    apply entries_congr
    · rw [onDisk, sameSize, ← cached]
    · intro position
      rw [byte]
  have altered := consistent.altered held locked edited assigned.updated coherent dinodes
    (fun other _ position => by rw [byte])
    (fun other different holeFree => holeFree.of_data (dinodes other different) data) ?_ ?_ ?_
  · have node : ((store.withDinode ip update).updated ip).nodes (store.icache ip).inum =
        { store.nodes (store.icache ip).inum with
          nlink := (update (store.icache ip).dinode).nlink } := by
      simp only [Store.nodes, Volume.node, onDisk, sameType, entries, ← cached]
    rw [node] at altered
    exact altered
  · constructor
    · rw [onDisk, sameSize, cached]
      exact holeFree.bounded
    · intro bn below
      have address : ((store.withDinode ip update).updated ip).volume.address
          (store.icache ip).inum bn = store.volume.address (store.icache ip).inum bn :=
        congrFun blockAt ((store.icache ip).inum, some bn)
      rw [onDisk, sameSize, cached] at below
      rw [address]
      exact holeFree.mapped bn below
  · rw [icache_updated, icache_withDinode]
    intro isDir
    rw [sameType, cached] at isDir
    rw [sameSize, cached]
    exact consistent.whole.aligned _ isDir
  · rw [icache_updated, icache_withDinode]
    intro isDir
    rw [sameType, cached] at isDir
    rw [entries]
    exact consistent.whole.numbered _ isDir

end

end Fs
end Xv6
