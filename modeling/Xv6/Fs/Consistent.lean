import Mathlib.Algebra.Group.Pi.Basic
import Mathlib.Algebra.Order.Group.Int
import Mathlib.Algebra.Ring.Int.Defs
import Xv6.Fs.Entries

namespace Xv6
namespace Fs

open Foundation Function Store
open Buffer (Block Stop)

/-!
# Consistent stores

A store is consistent if its volume is owned and hole-free, its directories are
lists of entries, and the inode cache agrees with the volume.  The operations
of the inode layer keep it consistent.  What they do to the references, to the
locks and to the nodes is said exactly, since every caller has to account for
it.

`iput` is the operation that matters.  It frees an inode without links whose
last reference goes away, and no other.
-/

/-! ## Consistency -/

/-- The volume of the store is in order. -/
structure Whole (store : Store) : Prop where
  layout : Layout store.sb
  owned : Owned store.sb store.volume
  holeFree : ∀ inum, (store.volume.dinodes inum).type ≠ 0 → HoleFree store.volume inum
  stale : StaleInFiles store store.volume
  aligned : ∀ inum, (store.volume.dinodes inum).type = T_DIR →
    (store.volume.dinodes inum).size.toNat % direntSize = 0
  numbered : ∀ inum, (store.volume.dinodes inum).type = T_DIR →
    ∀ entry ∈ store.volume.entries inum, entry.inum < store.sb.ninodes

/-- An entry of the inode cache agrees with the volume. -/
structure Agrees (store : Store) (inode : Inode) : Prop where
  counted : 0 ≤ inode.ref
  unlocked : inode.ref = 0 → inode.locked = false
  inRange : 0 < inode.ref → inode.inum < store.sb.ninodes
  coherent : 0 < inode.ref → inode.valid = true → inode.dinode = store.volume.dinodes inode.inum
  typed : 0 < inode.ref → inode.valid = true → inode.dinode.type ≠ 0
  valid : inode.locked = true → inode.valid = true

/-- The volume and the inode cache are in order. -/
structure Intact (store : Store) : Prop where
  whole : Whole store
  agrees : ∀ ip, Agrees store (store.icache ip)
  single : ∀ ip other, 0 < (store.icache ip).ref → 0 < (store.icache other).ref →
    (store.icache ip).inum = (store.icache other).inum → ip = other

/-- An inode has a reference, and its copy in the cache has been read. -/
def Referenced (store : Store) (inum : Nat) : Prop :=
  ∃ ip, 0 < (store.icache ip).ref ∧ (store.icache ip).valid = true ∧ (store.icache ip).inum = inum

/-- An inode without links is still in use. -/
def Collected (store : Store) (inum : Nat) : Prop :=
  (store.volume.dinodes inum).type ≠ 0 → (store.volume.dinodes inum).nlink = 0 →
    Referenced store inum

structure Consistent (store : Store) : Prop extends Intact store where
  collected : ∀ inum, Collected store inum

variable {other : Index}

namespace Store

/-- The types, the link counts and the entries of all inodes. -/
def nodes (store : Store) : Nat → Node :=
  store.volume.node

section

variable (store : Store) (ip : Index)

def refs : Int :=
  (store.icache ip).ref

def locks : Bool :=
  (store.icache ip).locked

/-- The store after an assignment to an entry of the cache. -/
def withInode (inode : Inode) : Store :=
  { store with icache := update store.icache ip inode }

end

section

variable {store : Store} {ip : Index} {inode : Inode}

@[simp] theorem icache_withInode_self : (store.withInode ip inode).icache ip = inode := by
  simp only [withInode, update_self]

theorem icache_withInode_of_ne (different : other ≠ ip) :
    (store.withInode ip inode).icache other = store.icache other := by
  simp only [withInode, update_of_ne different]

@[simp] theorem volume_withInode : (store.withInode ip inode).volume = store.volume := rfl

@[simp] theorem nodes_withInode : (store.withInode ip inode).nodes = store.nodes := rfl

@[simp] theorem sb_withInode : (store.withInode ip inode).sb = store.sb := rfl

@[simp] theorem inOp_withInode : (store.withInode ip inode).inOp = store.inOp := rfl

@[simp] theorem lookups_withInode : (store.withInode ip inode).lookups = store.lookups := rfl

theorem refs_withInode : (store.withInode ip inode).refs = update store.refs ip inode.ref := by
  funext other
  by_cases same : other = ip
  · subst same
    rw [refs, icache_withInode_self, update_self]
  · rw [refs, icache_withInode_of_ne same, update_of_ne same, refs]

theorem locks_withInode : (store.withInode ip inode).locks =
    update store.locks ip inode.locked := by
  funext other
  by_cases same : other = ip
  · subst same
    rw [locks, icache_withInode_self, update_self]
  · rw [locks, icache_withInode_of_ne same, update_of_ne same, locks]

end

end Store

theorem wp_setInode {store : Store} (ip : Index) (update : Inode → Inode)
    {returns : PUnit → Store → Prop} {stops : Stop → Store → Prop} :
    Wp (setInode ip update) store returns stops ↔
      returns ⟨⟩ (store.withInode ip (update (store.icache ip))) := by
  rw [setInode, wp_modify]
  rfl

/-! ## Changing an entry of the cache -/

variable {inum : Nat}

section

variable {store : Store} {ip : Index} {inode : Inode}

theorem Whole.withInode (whole : Whole store) : Whole (store.withInode ip inode) :=
  ⟨whole.layout, whole.owned, whole.holeFree, whole.stale, whole.aligned, whole.numbered⟩

theorem Intact.withInode (intact : Intact store) (agrees : Agrees store inode)
    (single : 0 < inode.ref → ∀ other, other ≠ ip → 0 < (store.icache other).ref →
      (store.icache other).inum ≠ inode.inum) : Intact (store.withInode ip inode) := by
  have entries : ∀ other, (store.withInode ip inode).icache other = inode ∧ other = ip ∨
      (store.withInode ip inode).icache other = store.icache other ∧ other ≠ ip := by
    intro other
    by_cases same : other = ip
    · subst same
      exact Or.inl ⟨icache_withInode_self, rfl⟩
    · exact Or.inr ⟨icache_withInode_of_ne same, same⟩
  refine ⟨intact.whole.withInode, ?_, ?_⟩
  · intro other
    rcases entries other with ⟨isNew, _⟩ | ⟨isOld, _⟩
    · rw [isNew]
      exact ⟨agrees.counted, agrees.unlocked, agrees.inRange, agrees.coherent, agrees.typed,
        agrees.valid⟩
    · have old := intact.agrees other
      rw [isOld]
      exact ⟨old.counted, old.unlocked, old.inRange, old.coherent, old.typed, old.valid⟩
  · intro first second
    rcases entries first with ⟨isNew, isFirst⟩ | ⟨isOld, isFirst⟩ <;>
      rcases entries second with ⟨isNew', isSecond⟩ | ⟨isOld', isSecond⟩
    · intro _ _ _
      rw [isFirst, isSecond]
    · rw [isNew, isOld']
      intro held heldToo same
      exact absurd same.symm (single held second isSecond heldToo)
    · rw [isOld, isNew']
      intro held heldToo same
      exact absurd same (single heldToo first isFirst held)
    · rw [isOld, isOld']
      exact intact.single first second

theorem Referenced.withInode (referenced : Referenced store inum)
    (kept : 0 < (store.icache ip).ref → (store.icache ip).valid = true →
      (store.icache ip).inum = inum → 0 < inode.ref ∧ inode.valid = true ∧ inode.inum = inum) :
    Referenced (store.withInode ip inode) inum := by
  rcases referenced with ⟨other, held, valid, isInum⟩
  by_cases same : other = ip
  · subst same
    refine ⟨other, ?_⟩
    rw [icache_withInode_self]
    exact kept held valid isInum
  · refine ⟨other, ?_⟩
    rw [icache_withInode_of_ne same]
    exact ⟨held, valid, isInum⟩

theorem Consistent.withInode (consistent : Consistent store) (agrees : Agrees store inode)
    (single : 0 < inode.ref → ∀ other, other ≠ ip → 0 < (store.icache other).ref →
      (store.icache other).inum ≠ inode.inum)
    (kept : 0 < (store.icache ip).ref → (store.icache ip).valid = true →
      (store.volume.dinodes (store.icache ip).inum).nlink = 0 →
        0 < inode.ref ∧ inode.valid = true ∧ inode.inum = (store.icache ip).inum) :
    Consistent (store.withInode ip inode) := by
  refine ⟨consistent.toIntact.withInode agrees single, ?_⟩
  intro inum typed unlinked
  apply (consistent.collected inum typed unlinked).withInode
  intro held valid isInum
  rw [← isInum]
  apply kept held valid
  rw [isInum]
  exact unlinked

theorem Intact.inum_ne (intact : Intact store) {ip : Index} (held : 0 < (store.icache ip).ref)
    (different : other ≠ ip) (heldToo : 0 < (store.icache other).ref) :
    (store.icache other).inum ≠ (store.icache ip).inum :=
  fun same => different (intact.single other ip heldToo held same)

theorem Consistent.withFlags (consistent : Consistent store) {ref : Int} {locked : Bool}
    (held : 0 < (store.icache ip).ref) (heldStill : 0 < ref)
    (valid : locked = true → (store.icache ip).valid = true) :
    Consistent (store.withInode ip { store.icache ip with ref := ref, locked := locked }) := by
  have entry := consistent.agrees ip
  refine consistent.withInode ⟨?_, ?_, ?_, ?_, ?_, valid⟩ ?_ ?_
  · exact Int.le_of_lt heldStill
  · intro zero
    exact absurd zero (Int.ne_of_gt heldStill)
  · exact fun _ => entry.inRange held
  · exact fun _ => entry.coherent held
  · exact fun _ => entry.typed held
  · intro _ other different heldToo
    exact consistent.inum_ne held different heldToo
  · intro _ isValid _
    exact ⟨heldStill, isValid, rfl⟩

end

/-! ## Locks -/

section

variable {store : Store} {ip : Index}

/-- The store after `ilock`. -/
def Store.locking (store : Store) (ip : Index) : Store :=
  store.withInode ip { store.icache ip with
    locked := true
    valid := true
    dinode := store.volume.dinodes (store.icache ip).inum }

/-- The store after `iunlock`. -/
def Store.unlocking (store : Store) (ip : Index) : Store :=
  store.withInode ip { store.icache ip with locked := false }

theorem Store.dinodes_of_lt (inRange : inum < store.sb.ninodes) :
    store.volume.dinodes inum = Dinode.decode (store.blocks (store.sb.IBLOCK inum)) (inum % IPB) :=
  if_pos inRange

theorem ilock_wp (intact : Intact store) (held : 0 < (store.icache ip).ref)
    (unlocked : (store.icache ip).locked = false) :
    Wp (ilock ip) store
      (fun _ after => after = store.locking ip ∧
        (store.volume.dinodes (store.icache ip).inum).type ≠ 0)
      fun stop after => stop = .panic .ilockNoType ∧ after.lookups = store.lookups ∧
        (store.volume.dinodes (store.icache ip).inum).type = 0 := by
  have entry := intact.agrees ip
  have disk := dinodes_of_lt (entry.inRange held)
  have counted : ¬ (store.icache ip).ref < 1 := by omega
  simp only [ilock, wp_bind, wp_get, wp_ite, unlocked, Bool.false_eq_true, if_false]
  rw [if_neg counted]
  split
  · rename_i valid
    rw [wp_setInode]
    have coherent := entry.coherent held valid
    constructor
    · rw [Store.locking, ← coherent, ← valid]
    · rw [← coherent]
      exact entry.typed held valid
  · simp only [bread, wp_bind, wp_get, wp_pure, wp_setInode, ← disk]
    split
    · rename_i free
      rw [wp_throw]
      exact ⟨rfl, rfl, free⟩
    · rename_i typed
      exact ⟨rfl, typed⟩

theorem iunlock_wp (held : 0 < (store.icache ip).ref) (locked : (store.icache ip).locked = true) :
    Wp (iunlock ip) store fun _ after => after = store.unlocking ip := by
  have counted : ¬ (store.icache ip).ref < 1 := by omega
  simp only [iunlock, wp_bind, wp_get, wp_ite, locked, Bool.true_eq_false, false_or]
  rw [if_neg counted, wp_setInode]
  rfl

theorem Intact.locking (intact : Intact store) (held : 0 < (store.icache ip).ref)
    (typed : (store.volume.dinodes (store.icache ip).inum).type ≠ 0) :
    Intact (store.locking ip) := by
  have entry := intact.agrees ip
  apply intact.withInode
  · refine ⟨entry.counted, ?_, fun _ => entry.inRange held, fun _ _ => rfl, fun _ _ => typed,
      fun _ => rfl⟩
    intro zero
    exact absurd zero (Int.ne_of_gt held)
  · intro _ other different heldToo
    exact intact.inum_ne held different heldToo

theorem Consistent.locking (consistent : Consistent store) (held : 0 < (store.icache ip).ref)
    (typed : (store.volume.dinodes (store.icache ip).inum).type ≠ 0) :
    Consistent (store.locking ip) := by
  refine ⟨consistent.toIntact.locking held typed, ?_⟩
  intro inum isTyped unlinked
  apply (consistent.collected inum isTyped unlinked).withInode
  intro _ _ isInum
  exact ⟨held, rfl, isInum⟩

theorem Consistent.unlocking (consistent : Consistent store) (held : 0 < (store.icache ip).ref) :
    Consistent (store.unlocking ip) :=
  consistent.withFlags held held fun impossible => by cases impossible

@[simp] theorem Store.refs_locking : (store.locking ip).refs = store.refs := by
  rw [locking, refs_withInode]
  exact update_eq_self ip store.refs

@[simp] theorem Store.refs_unlocking : (store.unlocking ip).refs = store.refs := by
  rw [unlocking, refs_withInode]
  exact update_eq_self ip store.refs

theorem Store.locks_locking : (store.locking ip).locks = update store.locks ip true :=
  locks_withInode

theorem Store.locks_locking_self : (store.locking ip).locks ip = true := by
  rw [locks_locking, update_self]

theorem Store.refs_locking_pos (held : 0 < store.refs ip) : 0 < (store.locking ip).refs ip := by
  rwa [refs_locking]

theorem Store.locks_unlocking : (store.unlocking ip).locks = update store.locks ip false :=
  locks_withInode

@[simp] theorem Store.inum_locking (other : Index) :
    ((store.locking ip).icache other).inum = (store.icache other).inum := by
  by_cases same : other = ip
  · subst same
    rw [locking, icache_withInode_self]
  · rw [locking, icache_withInode_of_ne same]

@[simp] theorem Store.inum_unlocking (other : Index) :
    ((store.unlocking ip).icache other).inum = (store.icache other).inum := by
  by_cases same : other = ip
  · subst same
    rw [unlocking, icache_withInode_self]
  · rw [unlocking, icache_withInode_of_ne same]

end

/-! ## Taking references -/

variable {icache : Index → Inode}

section

variable {store : Store} {ip : Index}

theorem Consistent.unread (consistent : Consistent store) {inOp : Bool} {logged : List Nat}
    {lookups : List Lookup} :
    Consistent { store with inOp := inOp, logged := logged, lookups := lookups } := by
  have whole := consistent.whole
  refine ⟨⟨⟨whole.layout, whole.owned, whole.holeFree, whole.stale, whole.aligned,
    whole.numbered⟩, ?_, consistent.single⟩, consistent.collected⟩
  intro ip
  have entry := consistent.agrees ip
  exact ⟨entry.counted, entry.unlocked, entry.inRange, entry.coherent, entry.typed, entry.valid⟩

theorem cachedInode_eq_some (found : cachedInode icache inum = some ip) :
    0 < (icache ip).ref ∧ (icache ip).inum = inum := by
  have checked := List.find?_some found
  exact of_decide_eq_true checked

theorem cachedInode_eq_none (missing : cachedInode icache inum = none)
    (ip : Index) (held : 0 < (icache ip).ref) : (icache ip).inum ≠ inum := by
  intro same
  have checked := List.find?_eq_none.mp missing ip (List.mem_finRange ip)
  exact checked (decide_eq_true ⟨held, same⟩)

theorem emptyInode_eq_some (found : emptyInode icache = some ip) : (icache ip).ref = 0 := by
  have checked := List.find?_some found
  exact of_decide_eq_true checked

/-- The store after `iget` has returned an entry for the inode. -/
structure Got (before after : Store) (ip : Index) (inum : Nat) : Prop where
  intact : Intact after
  collected : ∀ other, Collected before other → Collected after other
  store : after = before.withInode ip (after.icache ip)
  inum : (after.icache ip).inum = inum
  ref : (after.icache ip).ref = (before.icache ip).ref + 1
  hit : 0 < (before.icache ip).ref →
    after.icache ip = { before.icache ip with ref := (before.icache ip).ref + 1 }
  miss : (before.icache ip).ref = 0 →
    (after.icache ip).valid = false ∧ (after.icache ip).locked = false

theorem Got.of_hit (intact : Intact store) (held : 0 < (store.icache ip).ref)
    (isInum : (store.icache ip).inum = inum) :
    Got store (store.withInode ip { store.icache ip with ref := (store.icache ip).ref + 1 }) ip
      inum := by
  have entry := intact.agrees ip
  refine ⟨?_, ?_, ?_, ?_, ?_, ?_, ?_⟩
  · apply intact.withInode
    · exact ⟨by dsimp only; omega, fun zero => by dsimp only at zero; omega,
        fun _ => entry.inRange held, fun _ => entry.coherent held, fun _ => entry.typed held,
        entry.valid⟩
    · intro _ other different heldToo
      exact intact.inum_ne held different heldToo
  · intro other collected typed unlinked
    apply (collected typed unlinked).withInode
    intro _ valid sameInum
    exact ⟨by dsimp only; omega, valid, sameInum⟩
  · rw [icache_withInode_self]
  · rw [icache_withInode_self]
    exact isInum
  · rw [icache_withInode_self]
  · intro _
    exact icache_withInode_self
  · intro zero
    omega

theorem Got.of_miss (intact : Intact store) (empty : (store.icache ip).ref = 0)
    (inRange : inum < store.sb.ninodes)
    (missing : ∀ other, 0 < (store.icache other).ref → (store.icache other).inum ≠ inum) :
    Got store (store.withInode ip { store.icache ip with inum := inum, ref := 1, valid := false })
      ip inum := by
  have unlocked := (intact.agrees ip).unlocked empty
  refine ⟨?_, ?_, ?_, ?_, ?_, ?_, ?_⟩
  · apply intact.withInode
    · refine ⟨Int.one_nonneg, fun _ => unlocked, fun _ => inRange, ?_, ?_, ?_⟩
      · intro _ impossible
        cases impossible
      · intro _ impossible
        cases impossible
      · intro locked
        rw [unlocked] at locked
        cases locked
    · intro _ other _ held
      exact missing other held
  · intro other collected typed unlinked
    apply (collected typed unlinked).withInode
    intro held
    omega
  · rw [icache_withInode_self]
  · rw [icache_withInode_self]
  · rw [icache_withInode_self]
    dsimp only
    omega
  · intro held
    omega
  · intro _
    rw [icache_withInode_self]
    exact ⟨rfl, unlocked⟩

/-- Every entry of the inode table is in use. -/
def Store.TableFull (store : Store) : Prop :=
  ∀ ip, (store.icache ip).ref ≠ 0

theorem iget_wp (intact : Intact store) (inRange : inum < store.sb.ninodes) :
    Wp (iget inum) store (fun ip after => Got store after ip inum)
      fun stop after => stop = .panic .igetNoInodes ∧ after = store ∧ after.TableFull := by
  simp only [iget, wp_bind, wp_get]
  cases found : cachedInode store.icache inum with
  | some ip =>
    rcases cachedInode_eq_some found with ⟨held, isInum⟩
    simp only [wp_bind, wp_setInode, wp_pure]
    exact Got.of_hit intact held isInum
  | none =>
    cases free : emptyInode store.icache with
    | some ip =>
      simp only [wp_bind, wp_setInode, wp_pure]
      exact Got.of_miss intact (emptyInode_eq_some free) inRange (cachedInode_eq_none found)
    | none =>
      rw [wp_throw]
      refine ⟨rfl, rfl, fun ip isFree => ?_⟩
      have used := List.find?_eq_none.mp free ip (List.mem_finRange ip)
      exact used (decide_eq_true isFree)

namespace Got

variable {before after : Store} (got : Got before after ip inum)
include got

theorem consistent (start : Consistent before) : Consistent after :=
  ⟨got.intact, fun other => got.collected other (start.collected other)⟩

theorem others (different : other ≠ ip) : after.icache other = before.icache other := by
  rw [got.store, icache_withInode_of_ne different]

theorem nodes : after.nodes = before.nodes := by
  rw [got.store, nodes_withInode]

theorem refs : after.refs = before.refs + Pi.single ip 1 := by
  funext other
  rw [Pi.add_apply, Pi.single_apply]
  by_cases same : other = ip
  · subst same
    rw [if_pos rfl]
    exact got.ref
  · rw [if_neg same, Int.add_zero, Store.refs, got.others same, Store.refs]

theorem locks (intact : Intact before) : after.locks = before.locks := by
  funext other
  by_cases same : other = ip
  · subst same
    rcases Int.lt_or_eq_of_le (intact.agrees other).counted with held | empty
    · rw [Store.locks, got.hit held, Store.locks]
    · rw [Store.locks, (got.miss empty.symm).2, Store.locks,
        (intact.agrees other).unlocked empty.symm]
  · rw [Store.locks, got.others same, Store.locks]

/-- Entries that are in use keep what they have. -/
theorem entry (other : Index) (held : 0 < before.refs other) :
    after.icache other = { before.icache other with ref := after.refs other } := by
  by_cases same : other = ip
  · subst same
    rw [Store.refs, got.ref]
    exact got.hit held
  · rw [Store.refs, got.others same]

end Got

/-- The store after `dirlookup` has followed an entry. -/
def Store.noted (store : Store) (dir : Nat) (entry : Dirent) : Store :=
  { store with
    lookups := store.lookups ++ [⟨dir, entry.name, entry.inum, (store.nodes entry.inum).type⟩] }

theorem noteLookup_wp (dir : Nat) (entry : Dirent) (inRange : entry.inum < store.sb.ninodes) :
    Wp (noteLookup dir entry.name entry.inum) store
      fun _ after => after = store.noted dir entry := by
  rw [noteLookup, wp_modify]
  simp only [Store.noted, Store.nodes, Volume.type_node, dinodes_of_lt inRange]

/-- A locked directory can be read. -/
theorem Intact.directory (intact : Intact store) (held : 0 < store.refs ip)
    (locked : store.locks ip = true)
    (isDir : (store.nodes (store.icache ip).inum).type = T_DIR) : Directory store ip := by
  have coherent := (intact.agrees ip).coherent held ((intact.agrees ip).valid locked)
  have onDisk : (store.volume.dinodes (store.icache ip).inum).type = T_DIR := isDir
  have typed := ne_zero_of_isDir onDisk
  refine ⟨intact.whole.owned, coherent, intact.whole.holeFree _ typed, ?_, ?_⟩
  · rw [coherent]
    exact intact.whole.aligned _ onDisk
  · rw [coherent]
    exact onDisk

theorem Directory.entries_eq (directory : Directory store ip) :
    store.entries ip = (store.nodes (store.icache ip).inum).entries := by
  have isDir := directory.isDir
  rw [directory.coherent] at isDir
  exact (Volume.entries_node isDir).symm

theorem Intact.entry_lt (intact : Intact store) {entry : Dirent}
    (member : entry ∈ (store.nodes inum).entries) : entry.inum < store.sb.ninodes := by
  by_cases isDir : (store.volume.dinodes inum).type = T_DIR
  · rw [Store.nodes, Volume.entries_node isDir] at member
    exact intact.whole.numbered inum isDir entry member
  · rw [Store.nodes, Volume.node_of_file isDir] at member
    cases member

/-- What `dirlookup` returns. -/
inductive LookedUp (store : Store) (dp : Index) (name : Name) :
    Option (Index × Nat) → Store → Prop where
  | missing (absent : ∀ entry ∈ (store.nodes (store.icache dp).inum).entries,
      entry.inum ≠ 0 → entry.name ≠ name) : LookedUp store dp name none store
  | found {after : Store} {ip : Index} (position inum : Nat)
      (isEntry : (store.nodes (store.icache dp).inum).entries[position]? = some ⟨inum, name⟩)
      (nonzero : inum ≠ 0)
      (got : Got (store.noted (store.icache dp).inum ⟨inum, name⟩) after ip inum) :
      LookedUp store dp name (some (ip, direntSize * position)) after

/-- Where `dirlookup` stops. -/
def LookupStop (store : Store) (dp : Index) (name : Name) (stop : Stop) (after : Store) : Prop :=
  stop = .panic .igetNoInodes ∧ after.TableFull ∧ ∃ inum, inum ≠ 0 ∧
    ⟨inum, name⟩ ∈ (store.nodes (store.icache dp).inum).entries ∧
      after = store.noted (store.icache dp).inum ⟨inum, name⟩

theorem Intact.noted (intact : Intact store) (dir : Nat) (entry : Dirent) :
    Intact (store.noted dir entry) := by
  have whole := intact.whole
  refine ⟨⟨whole.layout, whole.owned, whole.holeFree, whole.stale, whole.aligned,
    whole.numbered⟩, ?_, intact.single⟩
  intro ip
  have entry := intact.agrees ip
  exact ⟨entry.counted, entry.unlocked, entry.inRange, entry.coherent, entry.typed, entry.valid⟩

theorem dirlookup_wp {dp : Index} {name : Name} (intact : Intact store)
    (held : 0 < store.refs dp) (locked : store.locks dp = true)
    (isDir : (store.nodes (store.icache dp).inum).type = T_DIR) :
    Wp (dirlookup dp name) store
      (fun result after => LookedUp store dp name result after ∧
        (result.map fun found => (after.icache found.1).inum) =
          (store.nodes (store.icache dp).inum).lookup name)
      (LookupStop store dp name) := by
  have directory := intact.directory held locked isDir
  apply directory.dirlookup_wp
  · intro position inum isEntry nonzero isFirst
    rw [directory.entries_eq] at isEntry isFirst
    have member := List.mem_of_getElem? isEntry
    have inRange : inum < store.sb.ninodes := intact.entry_lt member
    rw [wp_bind]
    refine (noteLookup_wp (store.icache dp).inum ⟨inum, name⟩ inRange).total ?_
    intro _ after isAfter
    subst isAfter
    rw [wp_bind]
    refine (iget_wp (intact.noted _ _) inRange).mono ?_ ?_
    · intro ip after got
      rw [wp_pure]
      refine ⟨.found position inum isEntry nonzero got, ?_⟩
      rw [Node.lookup, isFirst, Option.map_some, Option.map_some, got.inum]
    · intro stop after stopped
      exact ⟨stopped.1, stopped.2.2, inum, nonzero, member, stopped.2.1⟩
  · intro none
    rw [directory.entries_eq] at none
    refine ⟨.missing fun entry member nonzero sameName => ?_, by rw [Node.lookup, none]; rfl⟩
    exact List.find?_eq_none.mp none entry member (decide_eq_true ⟨nonzero, sameName⟩)

end

end Fs
end Xv6
