import Mathlib.Algebra.BigOperators.Group.Finset.Basic
import Mathlib.Algebra.Order.BigOperators.Group.Finset
import Xv6.Fs.Entries

namespace Xv6
namespace Fs

open Foundation Function

/-!
# The tree of directories

The invariant that ties link counts to entries, over a table of nodes and
without the store behind it.  A directory is live while it has links.  The
first two entries of a directory are its dots, the others its children.  The
links of an inode are the children that name it and the `".."` of the live
directories whose parent it is; the root is its own parent.

A removed directory keeps its dots until its last reference goes away, so its
`".."` may name an inode that is no longer there.  Nothing is said about it.
What a call does to the table is one of a few moves: inodes without links are
freed, a name is added, a name is removed.  Each move keeps the invariant.
-/

/-! ## Nodes -/

variable {node : Node}

namespace Node

/-- A directory that has not been removed. -/
def Live (node : Node) : Prop :=
  node.type = T_DIR ∧ node.nlink ≠ 0

instance (node : Node) : Decidable node.Live :=
  inferInstanceAs (Decidable (_ ∧ _))

/-- An inode with a name. -/
def Linked (node : Node) : Prop :=
  node.type ≠ 0 ∧ node.nlink ≠ 0

/-- The inode that `".."` names. -/
def parent (node : Node) : Nat :=
  (node.entries.getD 1 Dirent.empty).inum

/-- The entries behind the dots. -/
def children (node : Node) : List Dirent :=
  node.entries.drop 2

theorem Live.linked (live : node.Live) : node.Linked := by
  refine ⟨?_, live.2⟩
  rw [live.1]
  decide

theorem Linked.live (linked : node.Linked) (isDir : node.type = T_DIR) : node.Live :=
  ⟨isDir, linked.2⟩

end Node

/-! ## Counting names -/

variable {dir inum count : Nat} {entry other : Dirent}

section

variable {nodes : Nat → Node}

section

variable (count : Nat) (nodes : Nat → Node) (inum : Nat)

/-- How many children have this inode number. -/
def named : Nat :=
  ∑ dir ∈ Finset.range count, (nodes dir).children.countP fun entry => entry.inum = inum

/-- How many live directories have this parent. -/
def subdirs : Nat :=
  ∑ dir ∈ Finset.range count, if (nodes dir).Live ∧ (nodes dir).parent = inum then 1 else 0

end

theorem sum_trade (first second : Nat → Nat) {place : Nat} (inside : place < count)
    (agree : ∀ other, other ≠ place → second other = first other) :
    (∑ index ∈ Finset.range count, second index) + first place =
      (∑ index ∈ Finset.range count, first index) + second place := by
  have member := Finset.mem_range.mpr inside
  have rest : ∑ index ∈ (Finset.range count).erase place, second index =
      ∑ index ∈ (Finset.range count).erase place, first index :=
    Finset.sum_congr rfl fun other inErase => agree other (Finset.ne_of_mem_erase inErase)
  rw [← Finset.add_sum_erase _ first member, ← Finset.add_sum_erase _ second member, rest]
  omega

theorem named_pos (inside : dir < count)
    (member : entry ∈ (nodes dir).children) (isInum : entry.inum = inum) :
    0 < named count nodes inum := by
  have positive : 0 < (nodes dir).children.countP fun entry => entry.inum = inum :=
    List.countP_pos_iff.mpr ⟨entry, member, decide_eq_true isInum⟩
  exact Nat.lt_of_lt_of_le positive
    (Finset.single_le_sum (f := fun dir => (nodes dir).children.countP fun entry =>
      entry.inum = inum) (fun _ _ => Nat.zero_le _) (Finset.mem_range.mpr inside))

theorem exists_of_named (positive : 0 < named count nodes inum) :
    ∃ dir entry, dir < count ∧ entry ∈ (nodes dir).children ∧ entry.inum = inum := by
  rcases Finset.exists_ne_zero_of_sum_ne_zero (Nat.ne_of_gt positive) with ⟨dir, inside, some⟩
  rcases List.countP_pos_iff.mp (Nat.pos_of_ne_zero some) with ⟨entry, member, isInum⟩
  exact ⟨dir, entry, Finset.mem_range.mp inside, member, of_decide_eq_true isInum⟩

theorem exists_of_subdirs (positive : 0 < subdirs count nodes inum) :
    ∃ dir, dir < count ∧ (nodes dir).Live ∧ (nodes dir).parent = inum := by
  rcases Finset.exists_ne_zero_of_sum_ne_zero (Nat.ne_of_gt positive) with ⟨dir, inside, some⟩
  refine ⟨dir, Finset.mem_range.mp inside, ?_⟩
  by_contra impossible
  exact some (if_neg impossible)

theorem countP_putEntry (entries : List Dirent) (index : Nat) (entry : Dirent)
    (counted : Dirent → Bool) :
    (putEntry entries index entry).countP counted + entries[index]?.toList.countP counted =
      entries.countP counted + if counted entry then 1 else 0 := by
  have split : entries = entries.take index ++ (entries[index]?.toList ++ entries.drop (index + 1)) := by
    rw [← List.drop_eq_getElem?_toList_append, List.take_append_drop]
  have whole := congrArg (List.countP counted) split
  rw [List.countP_append, List.countP_append] at whole
  rw [putEntry, List.countP_append, List.countP_cons]
  omega

theorem mem_putEntry {entries : List Dirent} {index : Nat}
    (member : other ∈ putEntry entries index entry) : other = entry ∨ other ∈ entries := by
  rcases List.mem_append.mp member with front | back
  · exact Or.inr (List.mem_of_mem_take front)
  · rcases List.mem_cons.mp back with isNew | rest
    · exact Or.inl isNew
    · exact Or.inr (List.mem_of_mem_drop rest)

end

/-! ## The invariant -/

/-- The tree of directories below the root, over the first inode numbers. -/
structure Tree (count : Nat) (nodes : Nat → Node) : Prop where
  zero : (nodes 0).type = 0
  beyond : ∀ inum, count ≤ inum → (nodes inum).type = 0
  files : ∀ inum, (nodes inum).type ≠ T_DIR → (nodes inum).entries = []
  root : (nodes ROOTINO).Live
  rootParent : (nodes ROOTINO).parent = ROOTINO
  dots : ∀ dir, (nodes dir).type = T_DIR →
    (nodes dir).entries = ⟨dir, dotName⟩ :: ⟨(nodes dir).parent, dotdotName⟩ :: (nodes dir).children
  proper : ∀ dir, ∀ entry ∈ (nodes dir).children, entry.inum ≠ 0 →
    entry.name ≠ dotName ∧ entry.name ≠ dotdotName
  typed : ∀ dir, ∀ entry ∈ (nodes dir).children, entry.inum ≠ 0 → (nodes entry.inum).type ≠ 0
  links : ∀ inum, (nodes inum).type ≠ 0 →
    (nodes inum).nlink.toNat = named count nodes inum + subdirs count nodes inum
  home : ∀ dir, (nodes dir).Live → named count nodes dir = if dir = ROOTINO then 0 else 1
  located : ∀ dir, ∀ entry ∈ (nodes dir).children, (nodes entry.inum).type = T_DIR →
    (nodes entry.inum).parent = dir
  removed : ∀ dir, (nodes dir).type = T_DIR → (nodes dir).nlink = 0 →
    ∀ entry ∈ (nodes dir).children, entry.inum = 0
  ranked : ∃ rank : Nat → Nat, ∀ dir, ∀ entry ∈ (nodes dir).children,
    (nodes entry.inum).type = T_DIR → rank dir < rank entry.inum

namespace Tree

variable {nodes : Nat → Node} (tree : Tree count nodes)
include tree

theorem lt_of_typed (typed : (nodes inum).type ≠ 0) : inum < count :=
  Nat.lt_of_not_le fun beyond => typed (tree.beyond inum beyond)

theorem ne_zero (typed : (nodes inum).type ≠ 0) : inum ≠ 0 := by
  intro same
  rw [same] at typed
  exact typed tree.zero

section

variable (member : entry ∈ (nodes dir).children)
include member

theorem isDir_of_child : (nodes dir).type = T_DIR := by
  by_contra notDir
  rw [Node.children, tree.files dir notDir] at member
  cases member

theorem live_of_child (nonzero : entry.inum ≠ 0) : (nodes dir).Live := by
  have isDir := tree.isDir_of_child member
  refine ⟨isDir, ?_⟩
  intro unlinked
  exact nonzero (tree.removed dir isDir unlinked entry member)

theorem linked_of_child (nonzero : entry.inum ≠ 0) : (nodes entry.inum).Linked := by
  have typed := tree.typed dir entry member nonzero
  have live := tree.live_of_child member nonzero
  have positive := named_pos (tree.lt_of_typed live.linked.1) member rfl
  refine ⟨typed, ?_⟩
  intro unlinked
  have links := tree.links entry.inum typed
  rw [unlinked] at links
  have zero : (0 : BitVec 16).toNat = 0 := rfl
  omega

end

theorem exists_entry (live : (nodes dir).Live) (notRoot : dir ≠ ROOTINO) :
    ∃ entry ∈ (nodes (nodes dir).parent).children, entry.inum = dir := by
  have once := tree.home dir live
  rw [if_neg notRoot] at once
  rcases exists_of_named (by omega : 0 < named count nodes dir) with ⟨above, entry, _, member, isDir⟩
  have located := tree.located above entry member (by rw [isDir]; exact live.1)
  rw [isDir] at located
  refine ⟨entry, ?_, isDir⟩
  rw [located]
  exact member

theorem parent_live (live : (nodes dir).Live) : (nodes (nodes dir).parent).Live := by
  by_cases isRoot : dir = ROOTINO
  · rw [isRoot, tree.rootParent]
    exact tree.root
  · rcases tree.exists_entry live isRoot with ⟨entry, member, isDir⟩
    apply tree.live_of_child member
    rw [isDir]
    exact tree.ne_zero live.linked.1

theorem subdirs_of_file (notDir : (nodes inum).type ≠ T_DIR) : subdirs count nodes inum = 0 := by
  by_contra some
  rcases exists_of_subdirs (Nat.pos_of_ne_zero some) with ⟨dir, _, live, isParent⟩
  have parentLive := tree.parent_live live
  rw [isParent] at parentLive
  exact notDir parentLive.1

theorem nlink_of_empty (live : (nodes dir).Live)
    (notRoot : dir ≠ ROOTINO) (empty : ∀ entry ∈ (nodes dir).children, entry.inum = 0) :
    (nodes dir).nlink.toNat = 1 := by
  have none : subdirs count nodes dir = 0 := by
    by_contra some
    rcases exists_of_subdirs (Nat.pos_of_ne_zero some) with ⟨below, _, belowLive, isParent⟩
    by_cases belowRoot : below = ROOTINO
    · rw [belowRoot, tree.rootParent] at isParent
      exact notRoot isParent.symm
    · rcases tree.exists_entry belowLive belowRoot with ⟨entry, member, isBelow⟩
      rw [isParent] at member
      have zero := empty entry member
      rw [isBelow] at zero
      exact tree.ne_zero belowLive.linked.1 zero
  rw [tree.links dir live.linked.1, tree.home dir live, if_neg notRoot, none]

theorem named_of_free (nonzero : inum ≠ 0)
    (free : (nodes inum).type = 0) : named count nodes inum = 0 := by
  by_contra some
  rcases exists_of_named (Nat.pos_of_ne_zero some) with ⟨dir, entry, _, member, isInum⟩
  rw [← isInum] at nonzero free
  exact tree.typed dir entry member nonzero free

end Tree

/-! ## What a walk relies on -/

/-- From live directories only linked inodes are found.  This holds of a tree,
and also while a call has counted a link that it has not made yet. -/
structure Closed (nodes : Nat → Node) : Prop where
  root : (nodes ROOTINO).Live
  linked : ∀ dir, (nodes dir).Live → ∀ entry ∈ (nodes dir).entries, entry.inum ≠ 0 →
    (nodes entry.inum).Linked

theorem Tree.closed {nodes : Nat → Node} (tree : Tree count nodes) : Closed nodes := by
  refine ⟨tree.root, ?_⟩
  intro dir live entry member nonzero
  rw [tree.dots dir live.1] at member
  rcases List.mem_cons.mp member with isDot | rest
  · rw [isDot]
    exact live.linked
  · rcases List.mem_cons.mp rest with isDotdot | isChild
    · rw [isDotdot]
      exact (tree.parent_live live).linked
    · exact tree.linked_of_child isChild nonzero

/-! ## Freeing -/

/-- Inodes without links were freed, and no other node is different. -/
def Collects (before after : Nat → Node) : Prop :=
  ∀ inum, after inum = before inum ∨ (before inum).nlink = 0 ∧ after inum = Node.free

namespace Collects

variable {before middle after : Nat → Node}

theorem refl (nodes : Nat → Node) : Collects nodes nodes :=
  fun _ => Or.inl rfl

theorem trans (early : Collects before middle) (late : Collects middle after) :
    Collects before after := by
  intro inum
  rcases late inum with same | ⟨unlinked, freed⟩
  · rw [same]
    exact early inum
  · rcases early inum with same | ⟨unlinkedBefore, _⟩
    · rw [same] at unlinked
      exact Or.inr ⟨unlinked, freed⟩
    · exact Or.inr ⟨unlinkedBefore, freed⟩

variable (collects : Collects before after)
include collects

theorem of_linked (linked : (before inum).nlink ≠ 0) : after inum = before inum := by
  rcases collects inum with same | ⟨unlinked, _⟩
  · exact same
  · exact absurd unlinked linked

theorem of_linked_after (linked : (after inum).nlink ≠ 0) : after inum = before inum := by
  rcases collects inum with same | ⟨_, freed⟩
  · exact same
  · rw [freed] at linked
    exact absurd rfl linked

theorem of_typed (typed : (after inum).type ≠ 0) : after inum = before inum := by
  rcases collects inum with same | ⟨_, freed⟩
  · exact same
  · rw [freed] at typed
    exact absurd rfl typed

theorem closed (isClosed : Closed before) : Closed after := by
  refine ⟨?_, ?_⟩
  · rw [collects.of_linked isClosed.root.2]
    exact isClosed.root
  · intro dir live entry member nonzero
    have same := collects.of_linked_after live.2
    rw [same] at live member
    have linked := isClosed.linked dir live entry member nonzero
    rw [collects.of_linked linked.2]
    exact linked

theorem named_eq (tree : Tree count before) (nonzero : inum ≠ 0) : named count after inum =
    named count before inum := by
  apply Finset.sum_congr rfl
  intro dir _
  rcases collects dir with same | ⟨unlinked, freed⟩
  · rw [same]
  · have none : Node.free.children = [] := rfl
    rw [freed, none, List.countP_nil, eq_comm, List.countP_eq_zero]
    intro entry member isInum
    have isDir := tree.isDir_of_child member
    have zero := tree.removed dir isDir unlinked entry member
    rw [of_decide_eq_true isInum] at zero
    exact nonzero zero

theorem subdirs_eq (count inum : Nat) : subdirs count after inum = subdirs count before inum := by
  apply Finset.sum_congr rfl
  intro dir _
  rcases collects dir with same | ⟨unlinked, freed⟩
  · rw [same]
  · rw [freed, if_neg, if_neg]
    · exact fun both => both.1.2 unlinked
    · exact fun both => both.1.2 rfl

/-- Freeing keeps the tree. -/
theorem tree (isTree : Tree count before) : Tree count after := by
  have isChild : ∀ {dir entry}, entry ∈ (after dir).children → entry ∈ (before dir).children := by
    intro dir entry member
    rcases collects dir with same | ⟨_, freed⟩
    · rw [same] at member
      exact member
    · rw [freed] at member
      cases member
  have isDir : ∀ {inum}, (after inum).type = T_DIR → after inum = before inum := by
    intro inum isDir
    apply collects.of_typed
    rw [isDir]
    decide
  refine ⟨?_, ?_, ?_, ?_, ?_, ?_, ?_, ?_, ?_, ?_, ?_, ?_, ?_⟩
  · rcases collects 0 with same | ⟨_, freed⟩
    · rw [same]
      exact isTree.zero
    · rw [freed]
      rfl
  · intro inum beyond
    rcases collects inum with same | ⟨_, freed⟩
    · rw [same]
      exact isTree.beyond inum beyond
    · rw [freed]
      rfl
  · intro inum notDir
    rcases collects inum with same | ⟨_, freed⟩
    · rw [same] at notDir ⊢
      exact isTree.files inum notDir
    · rw [freed]
      rfl
  · rw [collects.of_linked isTree.root.2]
    exact isTree.root
  · rw [collects.of_linked isTree.root.2]
    exact isTree.rootParent
  · intro dir dirStill
    have same := isDir dirStill
    rw [same] at dirStill ⊢
    exact isTree.dots dir dirStill
  · intro dir entry member nonzero
    exact isTree.proper dir entry (isChild member) nonzero
  · intro dir entry member nonzero
    have linked := isTree.linked_of_child (isChild member) nonzero
    rw [collects.of_linked linked.2]
    exact linked.1
  · intro inum typed
    have same := collects.of_typed typed
    rw [same] at typed
    rw [same, collects.named_eq isTree (isTree.ne_zero typed), collects.subdirs_eq]
    exact isTree.links inum typed
  · intro dir live
    rw [collects.of_linked_after live.2] at live
    rw [collects.named_eq isTree (isTree.ne_zero live.linked.1)]
    exact isTree.home dir live
  · intro dir entry member dirStill
    have same := isDir dirStill
    rw [same] at dirStill ⊢
    exact isTree.located dir entry (isChild member) dirStill
  · intro dir dirStill unlinked
    have same := isDir dirStill
    rw [same] at dirStill unlinked ⊢
    exact isTree.removed dir dirStill unlinked
  · rcases isTree.ranked with ⟨rank, increases⟩
    refine ⟨rank, ?_⟩
    intro dir entry member dirStill
    rw [isDir dirStill] at dirStill
    exact increases dir entry (isChild member) dirStill

end Collects

/-! ## Writing a child -/

namespace Node

/-- The node after an entry was written. -/
def put (node : Node) (index : Nat) (entry : Dirent) : Node :=
  { node with entries := putEntry node.entries index entry }

theorem put_behind {first second : Dirent}
    (dots : node.entries = first :: second :: node.children) (index : Nat) (entry : Dirent) :
    (node.put (index + 2) entry).entries = first :: second :: putEntry node.children index entry ∧
      (node.put (index + 2) entry).children = putEntry node.children index entry ∧
      (node.put (index + 2) entry).parent = node.parent := by
  have entries : (node.put (index + 2) entry).entries =
      first :: second :: putEntry node.children index entry := by
    rw [put]
    dsimp only
    rw [dots]
    simp only [putEntry, List.take_succ_cons, List.cons_append, List.drop_succ_cons]
  refine ⟨entries, ?_, ?_⟩
  · rw [children, entries]
    rfl
  · rw [parent, entries, parent, dots]
    rfl

end Node

section

variable {before after : Nat → Node} {dp ip index : Nat}

/-- One directory had a child written, and no other has different children. -/
structure Writes (before after : Nat → Node) (dp index : Nat) (entry : Dirent) : Prop where
  self : (after dp).children = putEntry (before dp).children index entry
  others : ∀ dir, dir ≠ dp → (after dir).children = (before dir).children

theorem Writes.named_eq (writes : Writes before after dp index entry) (inside : dp < count)
    (inum : Nat) :
    named count after inum +
        ((before dp).children[index]?.toList.countP fun entry => entry.inum = inum) =
      named count before inum + if entry.inum = inum then 1 else 0 := by
  have written := countP_putEntry (before dp).children index entry fun entry => entry.inum = inum
  have trade := sum_trade (fun dir => (before dir).children.countP fun entry => entry.inum = inum)
    (fun dir => (after dir).children.countP fun entry => entry.inum = inum) inside
    fun other different => by rw [writes.others other different]
  rw [writes.self] at trade
  simp only [decide_eq_true_eq] at written
  unfold named
  omega

theorem Writes.mem (writes : Writes before after dp index entry)
    (member : other ∈ (after dir).children) :
    other ∈ (before dir).children ∨ dir = dp ∧ other = entry := by
  by_cases same : dir = dp
  · subst same
    rw [writes.self] at member
    rcases mem_putEntry member with isNew | isOld
    · exact Or.inr ⟨rfl, isNew⟩
    · exact Or.inl isOld
  · rw [writes.others dir same] at member
    exact Or.inl member

/-- A directory is live or not, and has its parent, as before. -/
def SamePlace (first second : Node) : Prop :=
  (second.Live ↔ first.Live) ∧ (first.Live → second.parent = first.parent)

theorem subdirs_trade (inside : ip < count)
    (same : ∀ dir, dir ≠ ip → SamePlace (before dir) (after dir)) (inum : Nat) :
    (subdirs count after inum + if (before ip).Live ∧ (before ip).parent = inum then 1 else 0) =
      subdirs count before inum + if (after ip).Live ∧ (after ip).parent = inum then 1 else 0 := by
  apply sum_trade (fun dir => if (before dir).Live ∧ (before dir).parent = inum then 1 else 0)
    (fun dir => if (after dir).Live ∧ (after dir).parent = inum then 1 else 0) inside
  intro other different
  rcases same other different with ⟨live, parent⟩
  by_cases isLive : (before other).Live
  · rw [parent isLive]
    simp only [live, isLive, true_and]
  · simp only [live, isLive, false_and, if_false]

end

/-! ## Adding a name -/

/-- A name was added to a live directory: a new link to a file, or a new inode,
which may be a directory. -/
structure Added (count : Nat) (before after : Nat → Node) (dp ip index : Nat) (name : Name) :
    Prop where
  live : (before dp).Live
  nonzero : ip ≠ 0
  inside : ip < count
  different : ip ≠ dp
  notDir : (before ip).type ≠ T_DIR
  proper : name ≠ dotName ∧ name ≠ dotdotName
  typed : (after ip).type ≠ 0
  fresh : (after ip).type = T_DIR → (before ip).type = 0
  entries : (after ip).entries =
    if (after ip).type = T_DIR then [⟨ip, dotName⟩, ⟨dp, dotdotName⟩] else []
  links : (after ip).nlink.toNat = named count before ip + 1
  isDp : after dp = { (before dp).put (index + 2) ⟨ip, name⟩ with nlink := (after dp).nlink }
  linksDp : (after dp).nlink.toNat =
    (before dp).nlink.toNat + if (after ip).type = T_DIR then 1 else 0
  others : ∀ other, other ≠ dp → other ≠ ip → after other = before other
  empty : ∀ old, (before dp).children[index]? = some old → old.inum = 0

theorem nlink_ne_zero {more : Nat} (links : node.nlink.toNat = more + 1) : node.nlink ≠ 0 := by
  intro zero
  rw [zero] at links
  cases links

theorem Node.Live.toNat_pos (live : node.Live) : 0 < node.nlink.toNat := by
  apply Nat.pos_of_ne_zero
  intro zero
  exact live.2 (BitVec.eq_of_toNat_eq zero)

namespace Added

variable {before after : Nat → Node} {dp ip index : Nat} {name : Name}
  (added : Added count before after dp ip index name)
include added

theorem liveDp : (after dp).Live := by
  have positive := added.live.toNat_pos
  have links := added.linksDp
  constructor
  · rw [added.isDp]
    exact added.live.1
  · intro zero
    rw [zero] at links
    have isZero : (0 : BitVec 16).toNat = 0 := rfl
    omega

theorem parentDp (tree : Tree count before) : (after dp).parent = (before dp).parent := by
  rw [added.isDp]
  exact (Node.put_behind (tree.dots dp added.live.1) index ⟨ip, name⟩).2.2

theorem childrenIp : (after ip).children = [] := by
  rw [Node.children, added.entries]
  split <;> rfl

theorem parentIp (isDir : (after ip).type = T_DIR) : (after ip).parent = dp := by
  rw [Node.parent, added.entries, if_pos isDir]
  rfl

theorem liveIp (isDir : (after ip).type = T_DIR) : (after ip).Live :=
  ⟨isDir, nlink_ne_zero added.links⟩

theorem writes (tree : Tree count before) : Writes before after dp index ⟨ip, name⟩ := by
  constructor
  · rw [added.isDp]
    exact (Node.put_behind (tree.dots dp added.live.1) index ⟨ip, name⟩).2.1
  · intro dir notDp
    by_cases isNew : dir = ip
    · subst isNew
      rw [added.childrenIp, Node.children, tree.files dir added.notDir]
      rfl
    · rw [added.others dir notDp isNew]

theorem types (notIp : inum ≠ ip) : (after inum).type = (before inum).type := by
  by_cases isDir : inum = dp
  · rw [isDir, added.isDp]
    rfl
  · rw [added.others inum isDir notIp]

section

variable (tree : Tree count before)
include tree

theorem parents (notIp : inum ≠ ip) : (after inum).parent = (before inum).parent := by
  by_cases isDir : inum = dp
  · rw [isDir]
    exact added.parentDp tree
  · rw [added.others inum isDir notIp]

theorem same (dir : Nat) (notIp : dir ≠ ip) : SamePlace (before dir) (after dir) := by
  by_cases isDir : dir = dp
  · rw [isDir]
    exact ⟨iff_of_true added.liveDp added.live, fun _ => added.parentDp tree⟩
  · rw [added.others dir isDir notIp]
    exact ⟨Iff.rfl, fun _ => rfl⟩

theorem named_eq (nonzero : inum ≠ 0) :
    named count after inum = named count before inum + if ip = inum then 1 else 0 := by
  have trade := (added.writes tree).named_eq (tree.lt_of_typed added.live.linked.1) inum
  have none : ((before dp).children[index]?.toList.countP fun entry => entry.inum = inum) = 0 := by
    rw [List.countP_eq_zero]
    intro old member isInum
    have zero := added.empty old (Option.mem_toList.mp member)
    rw [of_decide_eq_true isInum] at zero
    exact nonzero zero
  rw [none] at trade
  exact trade

theorem subdirs_eq (inum : Nat) :
    subdirs count after inum =
      subdirs count before inum + if (after ip).type = T_DIR ∧ dp = inum then 1 else 0 := by
  have trade := subdirs_trade added.inside (added.same tree) inum
  rw [if_neg (fun both => added.notDir both.1.1), Nat.add_zero] at trade
  rw [trade]
  congr 1
  by_cases isDir : (after ip).type = T_DIR
  · rw [added.parentIp isDir]
    simp only [added.liveIp isDir, isDir, true_and]
  · simp only [Node.Live, isDir, false_and]

theorem root_ne : ROOTINO ≠ ip := by
  intro isRoot
  have notDir := added.notDir
  rw [← isRoot] at notDir
  exact notDir tree.root.1

theorem child_ne (isDir : (after ip).type = T_DIR) {old : Dirent}
    (member : old ∈ (before dir).children) : old.inum ≠ ip := by
  intro isIp
  have nonzero := added.nonzero
  have free := added.fresh isDir
  rw [← isIp] at nonzero free
  exact tree.typed dir old member nonzero free

theorem dots (dir : Nat) (isDir : (after dir).type = T_DIR) :
    (after dir).entries =
      ⟨dir, dotName⟩ :: ⟨(after dir).parent, dotdotName⟩ :: (after dir).children := by
  by_cases isNew : dir = ip
  · subst isNew
    rw [added.parentIp isDir, added.childrenIp, added.entries, if_pos isDir]
  · rw [added.types isNew] at isDir
    by_cases atDp : dir = dp
    · subst atDp
      rw [(added.writes tree).self, added.parentDp tree, added.isDp]
      exact (Node.put_behind (tree.dots dir isDir) index ⟨ip, name⟩).1
    · rw [added.others dir atDp isNew]
      exact tree.dots dir isDir

theorem linksAfter (inum : Nat) (typed : (after inum).type ≠ 0) :
    (after inum).nlink.toNat = named count after inum + subdirs count after inum := by
  by_cases isNew : inum = ip
  · subst isNew
    rw [added.named_eq tree added.nonzero, added.subdirs_eq tree, if_pos rfl,
      tree.subdirs_of_file added.notDir, if_neg (fun both => added.different both.2.symm),
      added.links]
  · rw [added.types isNew] at typed
    rw [added.named_eq tree (tree.ne_zero typed), if_neg (Ne.symm isNew), added.subdirs_eq tree]
    have old := tree.links inum typed
    by_cases atDp : inum = dp
    · subst atDp
      rw [added.linksDp, old]
      simp only [and_true]
      omega
    · rw [added.others inum atDp isNew, if_neg (fun both => atDp both.2.symm), old, Nat.add_zero,
        Nat.add_zero]

theorem home (dir : Nat) (live : (after dir).Live) :
    named count after dir = if dir = ROOTINO then 0 else 1 := by
  by_cases isNew : dir = ip
  · subst isNew
    rw [added.named_eq tree added.nonzero, if_pos rfl, if_neg (Ne.symm (added.root_ne tree)),
      tree.named_of_free added.nonzero (added.fresh live.1)]
  · have liveBefore := (added.same tree dir isNew).1.mp live
    rw [added.named_eq tree (tree.ne_zero liveBefore.linked.1), if_neg (Ne.symm isNew), Nat.add_zero]
    exact tree.home dir liveBefore

theorem located (dir : Nat) (other : Dirent) (member : other ∈ (after dir).children)
    (isDir : (after other.inum).type = T_DIR) : (after other.inum).parent = dir := by
  rcases (added.writes tree).mem member with old | ⟨atDp, isEntry⟩
  · by_cases isNew : other.inum = ip
    · rw [isNew] at isDir
      exact absurd isNew (added.child_ne tree isDir old)
    · rw [added.types isNew] at isDir
      rw [added.parents tree isNew]
      exact tree.located dir other old isDir
  · rw [isEntry] at isDir ⊢
    rw [atDp]
    exact added.parentIp isDir

theorem ranked :
    ∃ rank : Nat → Nat, ∀ dir, ∀ other ∈ (after dir).children,
      (after other.inum).type = T_DIR → rank dir < rank other.inum := by
  rcases tree.ranked with ⟨rank, increases⟩
  refine ⟨update rank ip (rank dp + 1), ?_⟩
  intro dir other member isDir
  have dirOld : dir ≠ ip := by
    intro isNew
    rw [isNew, added.childrenIp] at member
    cases member
  rw [update_of_ne dirOld]
  rcases (added.writes tree).mem member with old | ⟨atDp, isEntry⟩
  · have notNew : other.inum ≠ ip := by
      intro isNew
      rw [isNew] at isDir
      exact added.child_ne tree isDir old isNew
    rw [added.types notNew] at isDir
    rw [update_of_ne notNew]
    exact increases dir other old isDir
  · rw [isEntry, update_self, atDp]
    exact Nat.lt_succ_self _

end

/-- Adding a name keeps the tree. -/
theorem tree (isTree : Tree count before) : Tree count after := by
  refine ⟨?_, ?_, ?_, ?_, ?_, added.dots isTree, ?_, ?_, added.linksAfter isTree,
    added.home isTree, added.located isTree, ?_, added.ranked isTree⟩
  · rw [added.types added.nonzero.symm]
    exact isTree.zero
  · intro inum beyond
    have inside := added.inside
    rw [added.types (by omega)]
    exact isTree.beyond inum beyond
  · intro inum isFile
    by_cases isNew : inum = ip
    · subst isNew
      rw [added.entries, if_neg isFile]
    · have fileBefore := isFile
      rw [added.types isNew] at fileBefore
      have notDp : inum ≠ dp := by
        intro isDp
        rw [isDp] at fileBefore
        exact fileBefore added.live.1
      rw [added.others inum notDp isNew]
      exact isTree.files inum fileBefore
  · exact (added.same isTree ROOTINO (added.root_ne isTree)).1.mpr isTree.root
  · rw [added.parents isTree (added.root_ne isTree)]
    exact isTree.rootParent
  · intro dir other member nonzero
    rcases (added.writes isTree).mem member with old | ⟨_, isEntry⟩
    · exact isTree.proper dir other old nonzero
    · rw [isEntry]
      exact added.proper
  · intro dir other member nonzero
    by_cases isNew : other.inum = ip
    · rw [isNew]
      exact added.typed
    · rw [added.types isNew]
      rcases (added.writes isTree).mem member with old | ⟨_, isEntry⟩
      · exact isTree.typed dir other old nonzero
      · rw [isEntry] at isNew
        exact absurd rfl isNew
  · intro dir isDir unlinked other member
    by_cases isNew : dir = ip
    · rw [isNew, added.childrenIp] at member
      cases member
    · by_cases atDp : dir = dp
      · rw [atDp] at unlinked
        exact absurd unlinked added.liveDp.2
      · rw [added.others dir atDp isNew] at isDir unlinked member
        exact isTree.removed dir isDir unlinked other member

end Added

/-! ## Removing a name -/

/-- A name was removed from a directory.  A directory that loses its name has
no children, and the link from its `".."` goes as well. -/
structure Removed (before after : Nat → Node) (dp ip index : Nat) (name : Name) : Prop where
  isEntry : (before dp).children[index]? = some ⟨ip, name⟩
  nonzero : ip ≠ 0
  different : ip ≠ dp
  childless : (before ip).type = T_DIR → ∀ entry ∈ (before ip).children, entry.inum = 0
  isIp : after ip = { before ip with nlink := (after ip).nlink }
  links : (after ip).nlink.toNat + 1 = (before ip).nlink.toNat
  isDp : after dp = { (before dp).put (index + 2) Dirent.empty with nlink := (after dp).nlink }
  linksDp : ((after dp).nlink.toNat + if (before ip).type = T_DIR then 1 else 0) =
    (before dp).nlink.toNat
  others : ∀ other, other ≠ dp → other ≠ ip → after other = before other

namespace Tree

variable {nodes : Nat → Node} (tree : Tree count nodes) (member : entry ∈ (nodes dir).children)
include tree member

theorem child_ne_self : entry.inum ≠ dir := by
  intro same
  rcases tree.ranked with ⟨rank, increases⟩
  have isDir := tree.isDir_of_child member
  have less := increases dir entry member (by rw [same]; exact isDir)
  rw [same] at less
  exact Nat.lt_irrefl _ less

theorem child_ne_root : entry.inum ≠ ROOTINO := by
  intro isRoot
  have nonzero : entry.inum ≠ 0 := by
    rw [isRoot]
    decide
  have inside := tree.lt_of_typed (tree.live_of_child member nonzero).linked.1
  have positive := named_pos inside member rfl
  have none := tree.home ROOTINO tree.root
  rw [if_pos rfl, ← isRoot] at none
  omega

theorem two_le_nlink (isDir : (nodes entry.inum).type = T_DIR) : 2 ≤ (nodes dir).nlink.toNat := by
  have nonzero : entry.inum ≠ 0 := by
    intro zero
    rw [zero, tree.zero] at isDir
    exact absurd isDir (by decide)
  have live := tree.live_of_child member nonzero
  have below := (tree.linked_of_child member nonzero).live isDir
  have located := tree.located dir entry member isDir
  have insideBelow := Finset.mem_range.mpr (tree.lt_of_typed below.linked.1)
  rw [tree.links dir live.linked.1, tree.home dir live]
  have counted : (if (nodes entry.inum).Live ∧ (nodes entry.inum).parent = dir then 1 else 0) = 1 :=
    if_pos ⟨below, located⟩
  by_cases isRoot : dir = ROOTINO
  · subst isRoot
    have insideRoot := Finset.mem_range.mpr (tree.lt_of_typed tree.root.linked.1)
    have countedRoot : (if (nodes ROOTINO).Live ∧ (nodes ROOTINO).parent = ROOTINO then 1 else 0) =
        1 := if_pos ⟨tree.root, tree.rootParent⟩
    have pair := Finset.sum_le_sum_of_subset (f := fun dir =>
      if (nodes dir).Live ∧ (nodes dir).parent = ROOTINO then 1 else 0)
      (Finset.insert_subset insideRoot (Finset.singleton_subset_iff.mpr insideBelow))
    rw [Finset.sum_pair (tree.child_ne_root member).symm, counted, countedRoot] at pair
    rw [if_pos rfl]
    unfold subdirs
    omega
  · have one := Finset.single_le_sum (f := fun below =>
      if (nodes below).Live ∧ (nodes below).parent = dir then 1 else 0)
      (fun _ _ => Nat.zero_le _) insideBelow
    rw [counted] at one
    rw [if_neg isRoot]
    unfold subdirs
    omega

end Tree

namespace Removed

variable {before after : Nat → Node} {dp ip index : Nat} {name : Name}
  (removed : Removed before after dp ip index name)
include removed

theorem member : ⟨ip, name⟩ ∈ (before dp).children :=
  List.mem_of_getElem? removed.isEntry

theorem live (tree : Tree count before) : (before dp).Live :=
  tree.live_of_child removed.member removed.nonzero

theorem linked (tree : Tree count before) : (before ip).Linked :=
  tree.linked_of_child removed.member removed.nonzero

theorem types (inum : Nat) : (after inum).type = (before inum).type := by
  by_cases isIp : inum = ip
  · rw [isIp, removed.isIp]
  · by_cases isDp : inum = dp
    · rw [isDp, removed.isDp]
      rfl
    · rw [removed.others inum isDp isIp]

section

variable (tree : Tree count before)
include tree

theorem parents (inum : Nat) : (after inum).parent = (before inum).parent := by
  by_cases isIp : inum = ip
  · rw [isIp, removed.isIp]
    rfl
  · by_cases isDp : inum = dp
    · rw [isDp, removed.isDp]
      exact (Node.put_behind (tree.dots dp (removed.live tree).1) index Dirent.empty).2.2
    · rw [removed.others inum isDp isIp]

theorem liveDp : (after dp).Live := by
  have links := removed.linksDp
  have positive := (removed.live tree).toNat_pos
  refine ⟨by rw [removed.types]; exact (removed.live tree).1, ?_⟩
  intro zero
  rw [zero] at links
  have isZero : (0 : BitVec 16).toNat = 0 := rfl
  by_cases isDir : (before ip).type = T_DIR
  · have two := tree.two_le_nlink removed.member isDir
    rw [if_pos isDir] at links
    omega
  · rw [if_neg isDir] at links
    omega

theorem not_live : ¬ (after ip).Live := by
  intro live
  have isDir := live.1
  rw [removed.types] at isDir
  have liveBefore := (removed.linked tree).live isDir
  have one := tree.nlink_of_empty liveBefore (tree.child_ne_root removed.member)
    (removed.childless isDir)
  have links := removed.links
  have positive := live.toNat_pos
  omega

theorem writes : Writes before after dp index Dirent.empty := by
  constructor
  · rw [removed.isDp]
    exact (Node.put_behind (tree.dots dp (removed.live tree).1) index Dirent.empty).2.1
  · intro dir notDp
    by_cases isIp : dir = ip
    · rw [isIp, removed.isIp]
      rfl
    · rw [removed.others dir notDp isIp]

/-- The children that are left. -/
theorem child (member : entry ∈ (after dir).children)
    (nonzero : entry.inum ≠ 0) : entry ∈ (before dir).children := by
  rcases (removed.writes tree).mem member with old | ⟨_, isEmpty⟩
  · exact old
  · rw [isEmpty] at nonzero
    exact absurd rfl nonzero

theorem same (dir : Nat) (notIp : dir ≠ ip) : SamePlace (before dir) (after dir) := by
  refine ⟨?_, fun _ => removed.parents tree dir⟩
  by_cases isDp : dir = dp
  · rw [isDp]
    exact iff_of_true (removed.liveDp tree) (removed.live tree)
  · rw [removed.others dir isDp notIp]

theorem named_eq (nonzero : inum ≠ 0) :
    (named count after inum + if ip = inum then 1 else 0) = named count before inum := by
  have trade := (removed.writes tree).named_eq (tree.lt_of_typed (removed.live tree).linked.1) inum
  have notEmpty : ¬ Dirent.empty.inum = inum := fun zero => nonzero zero.symm
  rw [removed.isEntry, if_neg notEmpty] at trade
  simpa [List.countP_cons] using trade

theorem subdirs_eq (inum : Nat) :
    (subdirs count after inum + if (before ip).type = T_DIR ∧ dp = inum then 1 else 0) =
      subdirs count before inum := by
  have linked := removed.linked tree
  have trade := subdirs_trade (tree.lt_of_typed linked.1) (removed.same tree) inum
  have gone : (if (after ip).Live ∧ (after ip).parent = inum then 1 else 0) = 0 :=
    if_neg fun both => removed.not_live tree both.1
  rw [gone, Nat.add_zero] at trade
  rw [← trade]
  congr 1
  by_cases isDir : (before ip).type = T_DIR
  · have located := tree.located dp ⟨ip, name⟩ removed.member isDir
    dsimp only at located
    simp only [linked.live isDir, located, isDir, true_and]
  · simp only [Node.Live, isDir, false_and]

theorem linksAfter (inum : Nat) (typed : (after inum).type ≠ 0) :
    (after inum).nlink.toNat = named count after inum + subdirs count after inum := by
  rw [removed.types] at typed
  have old := tree.links inum typed
  have names := removed.named_eq tree (tree.ne_zero typed)
  have dirs := removed.subdirs_eq tree inum
  by_cases isIp : inum = ip
  · subst isIp
    have links := removed.links
    rw [if_pos rfl] at names
    rw [if_neg (fun both => removed.different both.2.symm)] at dirs
    omega
  · rw [if_neg (Ne.symm isIp)] at names
    by_cases isDp : inum = dp
    · subst isDp
      have links := removed.linksDp
      simp only [and_true] at dirs
      omega
    · rw [if_neg (fun both => isDp both.2.symm)] at dirs
      rw [removed.others inum isDp isIp]
      omega

end

/-- Removing a name keeps the tree. -/
theorem tree (isTree : Tree count before) : Tree count after := by
  have rootIp : ROOTINO ≠ ip := (isTree.child_ne_root removed.member).symm
  refine ⟨?_, ?_, ?_, (removed.same isTree ROOTINO rootIp).1.mpr isTree.root, ?_, ?_, ?_, ?_,
    removed.linksAfter isTree, ?_, ?_, ?_, ?_⟩
  · rw [removed.types]
    exact isTree.zero
  · intro inum beyond
    rw [removed.types]
    exact isTree.beyond inum beyond
  · intro inum isFile
    rw [removed.types] at isFile
    by_cases isIp : inum = ip
    · subst isIp
      rw [removed.isIp]
      exact isTree.files inum isFile
    · have notDp : inum ≠ dp := by
        intro isDp
        rw [isDp] at isFile
        exact isFile (removed.live isTree).1
      rw [removed.others inum notDp isIp]
      exact isTree.files inum isFile
  · rw [removed.parents isTree]
    exact isTree.rootParent
  · intro dir isDir
    rw [removed.types] at isDir
    by_cases isIp : dir = ip
    · subst isIp
      rw [removed.isIp]
      exact isTree.dots dir isDir
    · by_cases isDp : dir = dp
      · subst isDp
        rw [(removed.writes isTree).self, removed.parents isTree, removed.isDp]
        exact (Node.put_behind (isTree.dots dir isDir) index Dirent.empty).1
      · rw [removed.others dir isDp isIp]
        exact isTree.dots dir isDir
  · intro dir entry member nonzero
    exact isTree.proper dir entry (removed.child isTree member nonzero) nonzero
  · intro dir entry member nonzero
    rw [removed.types]
    exact isTree.typed dir entry (removed.child isTree member nonzero) nonzero
  · intro dir live
    have notIp : dir ≠ ip := by
      intro isIp
      rw [isIp] at live
      exact removed.not_live isTree live
    have liveBefore := (removed.same isTree dir notIp).1.mp live
    have names := removed.named_eq isTree (isTree.ne_zero liveBefore.linked.1)
    rw [if_neg (Ne.symm notIp), Nat.add_zero] at names
    rw [names]
    exact isTree.home dir liveBefore
  · intro dir entry member isDir
    rw [removed.types] at isDir
    have nonzero : entry.inum ≠ 0 := isTree.ne_zero (by rw [isDir]; decide)
    rw [removed.parents isTree]
    exact isTree.located dir entry (removed.child isTree member nonzero) isDir
  · intro dir isDir unlinked entry member
    by_contra nonzero
    have memberBefore := removed.child isTree member nonzero
    rw [removed.types] at isDir
    by_cases isIp : dir = ip
    · rw [isIp] at isDir memberBefore
      exact nonzero (removed.childless isDir entry memberBefore)
    · have live := (removed.same isTree dir isIp).1.mpr (isTree.live_of_child memberBefore nonzero)
      exact live.2 unlinked
  · rcases isTree.ranked with ⟨rank, increases⟩
    refine ⟨rank, ?_⟩
    intro dir entry member isDir
    rw [removed.types] at isDir
    have nonzero : entry.inum ≠ 0 := isTree.ne_zero (by rw [isDir]; decide)
    exact increases dir entry (removed.child isTree member nonzero) isDir

end Removed

/-! ## Reachability -/

/-- The inodes that are found from the root through directory entries. -/
inductive Reachable (nodes : Nat → Node) : Nat → Prop where
  | root : Reachable nodes ROOTINO
  | entry {dir : Nat} {entry : Dirent} (above : Reachable nodes dir)
      (isDir : (nodes dir).type = T_DIR) (member : entry ∈ (nodes dir).entries)
      (nonzero : entry.inum ≠ 0) : Reachable nodes entry.inum

namespace Tree

variable {nodes : Nat → Node}

theorem reachable_of_live (tree : Tree count nodes) (live : (nodes dir).Live) :
    Reachable nodes dir := by
  rcases tree.ranked with ⟨rank, increases⟩
  generalize isRank : rank dir = level
  induction level using Nat.strong_induction_on generalizing dir with
  | _ level ih =>
    by_cases isRoot : dir = ROOTINO
    · rw [isRoot]
      exact .root
    · rcases tree.exists_entry live isRoot with ⟨entry, member, isDir⟩
      have above := tree.parent_live live
      have less := increases _ entry member (by rw [isDir]; exact live.1)
      rw [isDir, isRank] at less
      have found := ih _ less above rfl
      rw [← isDir]
      refine .entry found above.1 ?_ ?_
      · rw [tree.dots _ above.1]
        exact List.mem_cons_of_mem _ (List.mem_cons_of_mem _ member)
      · rw [isDir]
        exact tree.ne_zero live.linked.1

theorem reachable_of_linked (tree : Tree count nodes)
    (linked : (nodes inum).Linked) : Reachable nodes inum := by
  have links := tree.links inum linked.1
  have positive : 0 < (nodes inum).nlink.toNat := by
    apply Nat.pos_of_ne_zero
    intro zero
    exact linked.2 (BitVec.eq_of_toNat_eq zero)
  by_cases isNamed : 0 < named count nodes inum
  · rcases exists_of_named isNamed with ⟨dir, entry, _, member, isInum⟩
    have nonzero : entry.inum ≠ 0 := by
      rw [isInum]
      exact tree.ne_zero linked.1
    have live := tree.live_of_child member nonzero
    rw [← isInum]
    refine .entry (tree.reachable_of_live live) live.1 ?_ nonzero
    rw [tree.dots dir live.1]
    exact List.mem_cons_of_mem _ (List.mem_cons_of_mem _ member)
  · rcases exists_of_subdirs (by omega : 0 < subdirs count nodes inum) with
      ⟨dir, _, live, isParent⟩
    rw [← isParent]
    exact tree.reachable_of_live (tree.parent_live live)

end Tree

end Fs
end Xv6
