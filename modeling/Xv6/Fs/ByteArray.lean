import Xv6.Fs.Image

namespace Xv6
namespace Fs

open Foundation Function Store
open Buffer (Block Stop)

/-!
# Inodes as byte arrays

`writei` runs its loop and then brings the size and the addresses of the inode
to the disk.  Between two calls the cached copy of the inode and the disk
agree, so the results are stated on the volume itself.

The contents of an inode are the bytes below its size.  A write from kernel
memory replaces a range of them and may extend them, a read returns a range of
them, and no other inode takes part in either.
-/

/-! ## Bringing an inode to the disk -/

/-- The store after `iupdate`. -/
def Store.updated (store : Store) (ip : Index) : Store :=
  store.modified (store.sb.IBLOCK (store.icache ip).inum)
    ((store.icache ip).dinode.encode ((store.icache ip).inum % IPB))

section

variable {tracked : Prop} {store : Store} {ip : Index}

theorem iupdate_wp (inOp : store.inOp = true) :
    Wp (iupdate ip) store fun _ after => after = store.updated ip := by
  rw [iupdate, wp_bind, wp_get]
  exact modifyBlock_wp inOp _ _

@[simp] theorem Store.icache_updated : (store.updated ip).icache = store.icache := rfl

section

variable (layout : Layout store.sb) (inRange : (store.icache ip).inum < store.sb.ninodes)
include layout inRange

theorem Store.volume_updated : (store.updated ip).volume = store.view ip :=
  volume_modified_iblock layout inRange
    (fun block => Dinode.decode_encode _ (Nat.mod_lt _ (by decide)) block)
    (fun block _ different => Dinode.decode_encode_of_ne _ different block)

theorem Store.view_updated : (store.updated ip).view ip = (store.updated ip).volume := by
  apply view_eq_volume
  rw [volume_updated layout inRange, icache_updated, dinodes_view_self]

end

theorem Store.stale_updated {b : Nat} (isStale : (store.updated ip).stale b ≠ none) :
    store.stale b ≠ none := by
  intro nothing
  refine isStale ?_
  rw [Store.updated, stale_modified]
  by_cases same : b = store.sb.IBLOCK (store.icache ip).inum
  · rw [same, update_self]
  · rw [update_of_ne same, nothing]

theorem Editing.updated (editing : Editing tracked store ip) : Editing tracked (store.updated ip) ip := by
  have isView : (store.updated ip).view ip = store.view ip :=
    (view_updated editing.layout editing.inRange).trans
      (volume_updated editing.layout editing.inRange)
  refine ⟨editing.layout, editing.inOp, editing.inRange, editing.typed, ?_, ?_⟩
  · rw [isView]
    exact editing.owned
  · intro isTracked b isStale
    rw [isView]
    exact editing.stale isTracked b (stale_updated isStale)

end

/-! ## Assigning to fields other than the addresses -/

section

variable {tracked : Prop} {store : Store} {ip : Index} {update : Dinode → Dinode}

theorem Store.blockAt_withDinode (sameAddrs : ∀ dinode, (update dinode).addrs = dinode.addrs) :
    ((store.withDinode ip update).view ip).blockAt = (store.view ip).blockAt := by
  funext place
  rcases place with ⟨other, index⟩
  rw [view_withDinode]
  refine Volume.blockAt_congr ?_ ?_ index
  · dsimp only
    by_cases same : other = (store.icache ip).inum
    · rw [same, update_self, sameAddrs, dinodes_view_self]
    · rw [update_of_ne same]
  · rfl

theorem Store.byte_withDinode (sameAddrs : ∀ dinode, (update dinode).addrs = dinode.addrs) :
    ((store.withDinode ip update).view ip).byte = (store.view ip).byte := by
  funext other position
  have sameAddress : ((store.withDinode ip update).view ip).address other (position / BSIZE) =
      (store.view ip).address other (position / BSIZE) :=
    congrFun (blockAt_withDinode sameAddrs) (other, some (position / BSIZE))
  rw [Volume.byte, sameAddress]
  rfl

theorem Editing.withDinode (editing : Editing tracked store ip)
    (sameAddrs : ∀ dinode, (update dinode).addrs = dinode.addrs)
    (sameType : ∀ dinode, (update dinode).type = dinode.type) :
    Editing tracked (store.withDinode ip update) ip := by
  have blockAt : ((store.withDinode ip update).view ip).blockAt = (store.view ip).blockAt :=
    blockAt_withDinode sameAddrs
  have held : ((store.withDinode ip update).view ip).held = (store.view ip).held := by
    funext place
    exact Volume.held_congr (congrFun blockAt place)
  have types : ∀ inum, (((store.withDinode ip update).view ip).dinodes inum).type =
      ((store.view ip).dinodes inum).type := by
    intro inum
    rw [view_withDinode]
    dsimp only
    by_cases same : inum = (store.icache ip).inum
    · rw [same, update_self, sameType, dinodes_view_self]
    · rw [update_of_ne same]
  have sameInum : ((store.withDinode ip update).icache ip).inum = (store.icache ip).inum := by
    rw [icache_withDinode]
  refine ⟨editing.layout, editing.inOp, ?_, ?_, ⟨?_, editing.owned.metadata, ?_, editing.owned.zero⟩, ?_⟩
  · rw [sameInum]
    exact editing.inRange
  · rw [icache_withDinode, sameType]
    exact editing.typed
  · rw [held]
    exact editing.owned.allocation
  · intro inum isFree
    rw [held]
    exact editing.owned.free inum (by rw [← types]; exact isFree)
  · intro isTracked b isStale
    rw [blockAt]
    rcases editing.stale isTracked b isStale with ⟨inPool, inFile⟩
    refine ⟨inPool, fun place holds => ?_⟩
    rw [types]
    exact inFile place holds

end

/-! ## `writei` -/

/-- What `writei` has done when it returns `n`. -/
structure Written (tracked : Prop) (src : Source) (before after : Store) (ip : Index)
    (off n : Nat) : Prop where
  editing : Editing tracked after ip
  edited : Edited before after ip
  coherent : after.view ip = after.volume
  byte : ∀ other position, ¬ (other = (before.icache ip).inum ∧ off ≤ position ∧ position < off + n) →
    after.volume.byte other position = before.volume.byte other position
  others : ∀ other, other ≠ (before.icache ip).inum →
    after.volume.dinodes other = before.volume.dinodes other
  alike : Dinode.Alike (before.icache ip).dinode (after.icache ip).dinode
  kept : ∀ place, before.volume.blockAt place ≠ 0 →
    after.volume.blockAt place = before.volume.blockAt place
  size : ∃ final, final ≤ off + n ∧
    (after.icache ip).dinode.size.toNat = max (before.icache ip).dinode.size.toNat final ∧
    (src.Total → final = off + n)
  holeFree : HoleFree after.volume (before.icache ip).inum
  bytes : src.Total → ∀ position, position < n →
    after.volume.byte (before.icache ip).inum (off + position) = src.byte position

variable {inum final off start n : Nat}

theorem HoleFree.kept {before after : Volume} (holeFree : HoleFree before inum)
    (sameDinode : after.dinodes inum = before.dinodes inum)
    (kept : ∀ place, before.blockAt place ≠ 0 → after.blockAt place = before.blockAt place) :
    HoleFree after inum := by
  refine ⟨sameDinode ▸ holeFree.bounded, fun bn below => ?_⟩
  have present := holeFree.mapped bn (sameDinode ▸ below)
  have same : after.address inum bn = before.address inum bn := kept (inum, some bn) present
  rw [same]
  exact present

/-- `writei` refuses a range that does not fit. -/
def Unwritable (size off n : Nat) : Prop :=
  off > size ∨ 2 ^ 32 ≤ off + n ∨ off + n > MAXFILE * BSIZE

section

variable {tracked : Prop} {store : Store} {ip : Index} {src : Source}

/-- `writei` of no bytes. -/
theorem Written.nothing (editing : Editing tracked store ip) (coherent : store.view ip = store.volume)
    (holeFree : HoleFree store.volume (store.icache ip).inum)
    (inside : off ≤ (store.icache ip).dinode.size.toNat) : Written tracked src store store ip off 0 :=
  ⟨editing, Edited.refl _ _, coherent, fun _ _ _ => rfl, fun _ _ => rfl, Dinode.Alike.refl _,
    fun _ _ => rfl,
    ⟨off, le_rfl, (Nat.max_eq_left inside).symm, fun _ => rfl⟩, holeFree,
    fun _ _ never => absurd never (Nat.not_lt_zero _)⟩

/-- The assignment to the size. -/
def extend (final : Nat) (dinode : Dinode) : Dinode :=
  if final > dinode.size.toNat then { dinode with size := BitVec.ofNat 32 final } else dinode

theorem size_extend (small : final < 2 ^ 32) (dinode : Dinode) :
    (extend final dinode).size.toNat = max dinode.size.toNat final := by
  unfold extend
  split
  · rename_i larger
    show (BitVec.ofNat 32 final).toNat = _
    rw [BitVec.toNat_ofNat, Nat.mod_eq_of_lt small]
    omega
  · omega

theorem extend_eq (final : Nat) (dinode : Dinode) :
    extend final dinode = { dinode with size := (extend final dinode).size } := by
  unfold extend
  split <;> rfl

theorem Wrote.written {middle : Store} (wrote : Wrote tracked src store middle ip 0 off n final)
    (coherent : store.view ip = store.volume)
    (holeFree : HoleFree store.volume (store.icache ip).inum)
    (inside : off ≤ (store.icache ip).dinode.size.toNat) (fits : off + n ≤ MAXFILE * BSIZE) :
    Written tracked src store ((middle.withDinode ip (extend final)).updated ip) ip off n := by
  have sameAddrs : ∀ dinode, (extend final dinode).addrs = dinode.addrs := fun dinode => by
    rw [extend_eq]
  have sameType : ∀ dinode, (extend final dinode).type = dinode.type := fun dinode => by
    rw [extend_eq]
  have edit := wrote.editing.withDinode sameAddrs sameType
  have sameInum := wrote.edited.inum
  have small : final < 2 ^ 32 := by
    have most : MAXFILE * BSIZE < 2 ^ 32 := by decide
    have upper := wrote.upper
    omega
  have volume : ((middle.withDinode ip (extend final)).updated ip).volume = _ :=
    volume_updated edit.layout edit.inRange
  have blockAt : ((middle.withDinode ip (extend final)).updated ip).volume.blockAt =
      (middle.view ip).blockAt := by
    rw [volume, blockAt_withDinode sameAddrs]
  rcases wrote.growth.cached wrote.edited with ⟨alike, sameSize⟩
  have size : (((middle.withDinode ip (extend final)).updated ip).icache ip).dinode.size.toNat =
      max (store.icache ip).dinode.size.toNat final := by
    rw [icache_updated, icache_withDinode, size_extend small, sameSize]
  have kept : ∀ place, store.volume.blockAt place ≠ 0 →
      ((middle.withDinode ip (extend final)).updated ip).volume.blockAt place =
        store.volume.blockAt place := by
    intro place present
    rw [blockAt, ← coherent]
    exact wrote.growth.kept place (coherent ▸ present)
  refine ⟨edit.updated, ?_, view_updated edit.layout edit.inRange, ?_, ?_, ?_, kept,
    ⟨final, wrote.upper, size, fun total => (wrote.full total).1⟩, ?_, ?_⟩
  · exact (wrote.edited.trans (Edited.withDinode _ _ _)).trans (Edited.modified _ _ _ _)
  · intro other position untouched
    rw [volume, byte_withDinode sameAddrs, wrote.growth.byte other position untouched, coherent]
  · intro other different
    rw [volume, dinodes_view_of_ne (by rw [icache_withDinode]; rw [sameInum]; exact different),
      volume_withDinode]
    have unchanged := wrote.growth.others other different
    rwa [coherent, dinodes_view_of_ne (by rw [sameInum]; exact different)] at unchanged
  · rw [icache_updated, icache_withDinode, extend_eq]
    exact alike.trans ⟨rfl, rfl, rfl, rfl⟩
  · have isDinode : ((middle.withDinode ip (extend final)).updated ip).volume.dinodes
        (store.icache ip).inum =
          (((middle.withDinode ip (extend final)).updated ip).icache ip).dinode := by
      have isInum : ((middle.withDinode ip (extend final)).icache ip).inum =
          (store.icache ip).inum := by
        rw [icache_withDinode]
        exact sameInum
      rw [volume, ← isInum, dinodes_view_self, icache_updated]
    have upper := wrote.upper
    have oldBound := holeFree.bounded
    have oldSize : (store.volume.dinodes (store.icache ip).inum).size =
        (store.icache ip).dinode.size := by
      rw [← coherent, dinodes_view_self]
    refine ⟨?_, fun bn below => ?_⟩
    · rw [isDinode, size]
      rw [oldSize] at oldBound
      omega
    · rw [isDinode, size] at below
      by_cases old : bn * BSIZE < (store.icache ip).dinode.size.toNat
      · have present := holeFree.mapped bn (by rw [oldSize]; exact old)
        have same : ((middle.withDinode ip (extend final)).updated ip).volume.address
            (store.icache ip).inum bn = store.volume.address (store.icache ip).inum bn :=
          kept ((store.icache ip).inum, some bn) present
        rw [same]
        exact present
      · have present := wrote.mapped (bn * BSIZE) (by omega) (by omega)
        rw [Nat.mul_div_cancel _ (by decide)] at present
        have same : ((middle.withDinode ip (extend final)).updated ip).volume.address
            (store.icache ip).inum bn = (middle.view ip).address (store.icache ip).inum bn :=
          congrFun blockAt ((store.icache ip).inum, some bn)
        rw [same]
        exact present
  · intro total position inRange
    have written := (wrote.full total).2 position inRange
    rw [Nat.zero_add] at written
    rw [volume, byte_withDinode sameAddrs, written]

/-- `writei` refuses a range that does not fit, or writes it and brings the
inode to the disk. -/
theorem writei_wp (editing : Editing tracked store ip) (coherent : store.view ip = store.volume)
    (holeFree : HoleFree store.volume (store.icache ip).inum)
    (kind : src.Total ∨ (store.icache ip).dinode.type ≠ T_DIR)
    (offFits : off < 2 ^ 32) (nFits : n < 2 ^ 32) :
    Wp (writei ip src off n) store
      (fun result after =>
        (Unwritable (store.icache ip).dinode.size.toNat off n → result = -1 ∧ after = store) ∧
        (¬ Unwritable (store.icache ip).dinode.size.toNat off n →
          result = n ∧ Written tracked src store after ip off n))
      fun stop after => ¬ Unwritable (store.icache ip).dinode.size.toNat off n ∧
        OutOfBlocks store stop after := by
  generalize isSize : (store.icache ip).dinode.size.toNat = size
  simp only [writei, wp_bind, wp_get, isSize, wp_ite, wp_pure, wraps_iff offFits nFits]
  by_cases refused : off > size ∨ 2 ^ 32 ≤ off + n
  · rw [if_pos refused]
    refine ⟨fun _ => ⟨trivial, trivial⟩, fun writable => absurd ?_ writable⟩
    exact refused.elim Or.inl fun wraps => Or.inr (Or.inl wraps)
  · have sum : (off + n) % 2 ^ 32 = off + n := by omega
    rw [if_neg refused, sum]
    split
    · rename_i large
      exact ⟨fun _ => ⟨trivial, trivial⟩, fun writable => absurd (Or.inr (Or.inr large)) writable⟩
    · rename_i fits
      have writable : ¬ Unwritable size off n := by
        unfold Unwritable
        omega
      split
      · rename_i some
        have loop := writeiFrom_wp editing (by omega : off + (n - 0) ≤ MAXFILE * BSIZE) le_rfl kind
        refine loop.mono ?_ fun stop after out => ⟨writable, out⟩
        intro final middle wrote
        have stillInOp : (middle.withDinode ip (extend final)).inOp = true := wrote.editing.inOp
        rw [wp_setDinode]
        refine (iupdate_wp stillInOp).total ?_
        rintro _ after rfl
        exact ⟨fun unwritable => absurd unwritable writable, fun _ => ⟨trivial,
          wrote.written coherent holeFree (by omega) (by omega)⟩⟩
      · rename_i empty
        have nothing : n = 0 := by omega
        subst nothing
        refine ⟨fun unwritable => absurd unwritable writable, fun _ => ⟨trivial, ?_⟩⟩
        exact Written.nothing editing coherent holeFree (by omega)

end

/-! ## The contents of inodes -/

/-- A hole-free file system that satisfies block ownership, in a transaction of
a process that has locked an inode. -/
structure Prepared (store : Store) (ip : Index) : Prop where
  layout : Layout store.sb
  inOp : store.inOp = true
  inRange : (store.icache ip).inum < store.sb.ninodes
  coherent : (store.icache ip).dinode = store.volume.dinodes (store.icache ip).inum
  typed : (store.icache ip).dinode.type ≠ 0
  owned : Owned store.sb store.volume
  holeFree : ∀ inum, (store.volume.dinodes inum).type ≠ 0 → HoleFree store.volume inum

/-- A range of the contents of one inode was replaced, and reads of the inode
see it. -/
structure Replaced (before after : Store) (ip : Index) (off : Nat) (new : List UInt8) : Prop where
  contents : after.volume.contents (before.icache ip).inum =
    (before.volume.contents (before.icache ip).inum).take off ++ new ++
      (before.volume.contents (before.icache ip).inum).drop (off + new.length)
  size : (after.volume.dinodes (before.icache ip).inum).size.toNat =
    max (before.volume.dinodes (before.icache ip).inum).size.toNat (off + new.length)
  others : ∀ other, other ≠ (before.icache ip).inum →
    after.volume.contents other = before.volume.contents other ∧
      (after.volume.dinodes other).size = (before.volume.dinodes other).size
  reads : ∀ start n, start < 2 ^ 32 → n < 2 ^ 32 →
    Wp (readi ip .kernel start n) after
      fun result final => final = after ∧
        result.1 = (if start > (after.volume.dinodes (before.icache ip).inum).size.toNat ∨
            2 ^ 32 ≤ start + n then 0
          else min n ((after.volume.dinodes (before.icache ip).inum).size.toNat - start)) ∧
        result.2 = ((after.volume.contents (before.icache ip).inum).drop start).take result.1

variable {after : Store} {src : Nat → UInt8}

section

variable {store : Store} {ip : Index}

theorem Volume.length_bytes (volume : Volume) (inum off count : Nat) :
    (volume.bytes inum off count).length = count := by
  rw [Volume.bytes, List.length_map, List.length_range]

theorem Volume.bytes_congr {first second : Volume} {count : Nat}
    (agree : ∀ position, off ≤ position → position < off + count →
      second.byte inum position = first.byte inum position) :
    second.bytes inum off count = first.bytes inum off count :=
  List.map_congr_left fun _ member =>
    agree _ (Nat.le_add_right _ _) (Nat.add_lt_add_left (List.mem_range.mp member) _)

section

variable (volume : Volume) (inside : start ≤ (volume.dinodes inum).size.toNat)
include volume inside

theorem Volume.contents_split :
    volume.contents inum = volume.bytes inum 0 start ++
      volume.bytes inum start ((volume.dinodes inum).size.toNat - start) := by
  have append := volume.bytes_append inum 0 start ((volume.dinodes inum).size.toNat - start)
  rw [Nat.zero_add, Nat.add_sub_cancel' inside] at append
  exact append.symm

theorem Volume.take_contents : (volume.contents inum).take start = volume.bytes inum 0 start := by
  rw [volume.contents_split inside]
  exact List.take_left' (volume.length_bytes _ _ _)

theorem Volume.drop_contents :
    (volume.contents inum).drop start =
      volume.bytes inum start ((volume.dinodes inum).size.toNat - start) := by
  rw [volume.contents_split inside]
  exact List.drop_left' (volume.length_bytes _ _ _)

end

theorem Volume.take_drop_contents (volume : Volume) {count : Nat}
    (inside : start + count ≤ (volume.dinodes inum).size.toNat) :
    ((volume.contents inum).drop start).take count = volume.bytes inum start count := by
  have split : (volume.dinodes inum).size.toNat - start =
      count + ((volume.dinodes inum).size.toNat - start - count) := by omega
  rw [volume.drop_contents (by omega), split, ← Volume.bytes_append]
  exact List.take_left' (volume.length_bytes _ _ _)

theorem Prepared.editing (prepared : Prepared store ip) : Editing False store ip := by
  have isVolume := view_eq_volume prepared.coherent
  refine ⟨prepared.layout, prepared.inOp, prepared.inRange, prepared.typed, ?_, False.elim⟩
  rw [isVolume]
  exact prepared.owned

/-- `readi` of an inode whose cached copy agrees with the disk. -/
theorem Prepared.reads (prepared : Prepared store ip) (startFits : start < 2 ^ 32)
    (nFits : n < 2 ^ 32) :
    Wp (readi ip .kernel start n) store
      fun result final => final = store ∧
        result.1 = readCount (store.volume.dinodes (store.icache ip).inum).size.toNat start n ∧
        result.2 = ((store.volume.contents (store.icache ip).inum).drop start).take result.1 := by
  have isVolume := view_eq_volume prepared.coherent
  have holeFree := prepared.holeFree (store.icache ip).inum (prepared.coherent ▸ prepared.typed)
  refine (readi_wp prepared.editing.owned (isVolume ▸ holeFree) .kernel startFits nFits).imp ?_
  rintro ⟨count, bytes⟩ final ⟨isFinal, _, whole⟩
  rcases whole fun _ _ _ => rfl with ⟨isCount, isBytes⟩
  dsimp only at isCount isBytes ⊢
  rw [prepared.coherent] at isCount
  refine ⟨isFinal, isCount, ?_⟩
  rw [isBytes, isVolume]
  by_cases inside : start + count ≤ (store.volume.dinodes (store.icache ip).inum).size.toNat
  · exact (store.volume.take_drop_contents inside).symm
  · have nothing : count = 0 := by
      rw [readCount] at isCount
      split at isCount
      · exact isCount
      · omega
    rw [nothing]
    rfl

/-- The contents after `writei` has returned. -/
theorem Written.contents (written : Written False (.kernel src) store after ip off n)
    (inside : off ≤ (store.volume.dinodes (store.icache ip).inum).size.toNat)
    (size : (after.volume.dinodes (store.icache ip).inum).size.toNat =
      max (store.volume.dinodes (store.icache ip).inum).size.toNat (off + n)) :
    after.volume.contents (store.icache ip).inum =
      (store.volume.contents (store.icache ip).inum).take off ++ (List.range n).map src ++
        (store.volume.contents (store.icache ip).inum).drop (off + n) := by
  have middle : after.volume.bytes (store.icache ip).inum off n = (List.range n).map src :=
    List.map_congr_left fun position member =>
      written.bytes (Source.total_kernel src) position (List.mem_range.mp member)
  have first : after.volume.bytes (store.icache ip).inum 0 off =
      store.volume.bytes (store.icache ip).inum 0 off :=
    Volume.bytes_congr fun position _ before => written.byte _ _ (by omega)
  have atMost : off + n ≤ (after.volume.dinodes (store.icache ip).inum).size.toNat := by omega
  rw [after.volume.contents_split atMost, ← Volume.bytes_append, Nat.zero_add, middle, first,
    store.volume.take_contents inside]
  congr 1
  by_cases within : off + n ≤ (store.volume.dinodes (store.icache ip).inum).size.toNat
  · rw [store.volume.drop_contents within, size, Nat.max_eq_left within]
    exact Volume.bytes_congr fun position behind _ => written.byte _ _ (by omega)
  · have short : (store.volume.contents (store.icache ip).inum).length ≤ off + n := by
      rw [Volume.contents, Volume.length_bytes]
      omega
    rw [List.drop_eq_nil_of_le short, size, Nat.max_eq_right (Nat.le_of_not_le within), Nat.sub_self]
    rfl

theorem Written.prepared {src : Source}
    (written : Written False src store after ip off n) (prepared : Prepared store ip) :
    Prepared after ip := by
  have sameInum := written.edited.inum
  have isDinode : (after.icache ip).dinode = after.volume.dinodes (store.icache ip).inum := by
    rw [← written.coherent, ← sameInum, dinodes_view_self]
  refine ⟨written.editing.layout, written.editing.inOp, written.editing.inRange, ?_,
    written.editing.typed, written.coherent ▸ written.editing.owned, fun inum typed => ?_⟩
  · rw [isDinode, sameInum]
  · by_cases same : inum = (store.icache ip).inum
    · rw [same]
      exact written.holeFree
    · have sameDinode := written.others inum same
      rw [sameDinode] at typed
      exact (prepared.holeFree inum typed).kept sameDinode written.kept

theorem Written.size_eq
    (written : Written False (.kernel src) store after ip off n) (prepared : Prepared store ip) :
    (after.volume.dinodes (store.icache ip).inum).size.toNat =
      max (store.volume.dinodes (store.icache ip).inum).size.toNat (off + n) := by
  have preparedToo := written.prepared prepared
  have sameInum := written.edited.inum
  rcases written.size with ⟨final, _, isSize, total⟩
  rw [← sameInum, ← preparedToo.coherent, isSize, total (Source.total_kernel src), sameInum,
    ← prepared.coherent]

/-- A write from kernel memory replaces a range of the contents of one inode,
or is refused and changes nothing. -/
theorem writei_replaces (prepared : Prepared store ip) {off n : Nat} (offFits : off < 2 ^ 32)
    (nFits : n < 2 ^ 32) (src : Nat → UInt8) :
    Wp (writei ip (.kernel src) off n) store
      (fun result after =>
        (Unwritable (store.icache ip).dinode.size.toNat off n → result = -1 ∧ after = store) ∧
        (¬ Unwritable (store.icache ip).dinode.size.toNat off n →
          result = n ∧ Prepared after ip ∧ Replaced store after ip off ((List.range n).map src)))
      fun stop after => stop = .panic .ballocOutOfBlocks ∧
        ¬ Unwritable (store.icache ip).dinode.size.toNat off n ∧ after.Full := by
  have isVolume := view_eq_volume prepared.coherent
  have holeFree := prepared.holeFree (store.icache ip).inum (prepared.coherent ▸ prepared.typed)
  refine (writei_wp prepared.editing isVolume holeFree (Or.inl (Source.total_kernel src)) offFits
    nFits).mono ?_ fun stop after out => ⟨out.2.1, out.1, out.2.2.1⟩
  rintro result after ⟨refused, accepted⟩
  refine ⟨refused, fun writable => ?_⟩
  rcases accepted writable with ⟨isResult, written⟩
  have preparedToo := written.prepared prepared
  have sameInum := written.edited.inum
  have inside : off ≤ (store.volume.dinodes (store.icache ip).inum).size.toNat := by
    rw [← prepared.coherent]
    exact Nat.le_of_not_lt fun beyond => writable (Or.inl beyond)
  have size := written.size_eq prepared
  have length : ((List.range n).map src).length = n := by
    rw [List.length_map, List.length_range]
  refine ⟨isResult, preparedToo, ?_, ?_, ?_, ?_⟩
  · rw [length]
    exact written.contents inside size
  · rw [length]
    exact size
  · intro other different
    have sameDinode := written.others other different
    refine ⟨?_, congrArg Dinode.size sameDinode⟩
    rw [Volume.contents, sameDinode]
    exact Volume.bytes_congr fun position _ _ => written.byte other position
      fun here => different here.1
  · intro start count startFits countFits
    have reads := preparedToo.reads startFits countFits
    rwa [sameInum] at reads

/-- On the small image, an entry is appended to the root directory. -/
theorem writei_replaces_sample : Prepared Sample.locked 0 ∧
    ∃ after, (writei 0 (.kernel fun _ => 65) 48 16).run Sample.locked = .ok (16 : Nat) after ∧
      Prepared after 0 ∧ Replaced Sample.locked after 0 48 ((List.range 16).map fun _ => 65) := by
  have prepared : Prepared Sample.locked 0 :=
    ⟨Sample.layout, rfl, by decide, Sample.coherent, by decide, Sample.owned, Sample.holeFree⟩
  have room : ∃ after, (writei 0 (.kernel fun _ => 65) 48 16).run Sample.locked =
      .ok (16 : Nat) after := ⟨_, rfl⟩
  have writable : ¬ Unwritable (Sample.locked.icache 0).dinode.size.toNat 48 16 := by
    rw [Unwritable]
    decide
  rcases room with ⟨after, ran⟩
  have replaces : Wp (writei 0 (.kernel fun _ => 65) 48 16) Sample.locked _ _ :=
    writei_replaces prepared (by decide) (by decide) fun _ => 65
  rw [wp_of_run ran] at replaces
  exact ⟨prepared, after, ran, (replaces.2 writable).2⟩

end

end Fs
end Xv6
