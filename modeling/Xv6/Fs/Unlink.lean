import Xv6.Fs.Links

namespace Xv6
namespace Fs

open Foundation Function
open Buffer (Block Stop)

/-!
# `sys_unlink`

`sys_unlink` has the directory and the inode locked at the same time.  It
clears the entry, takes back the link of the `".."` of a directory, gives up
the directory, and takes back the link of the entry last.

In a tree an entry that is no dot names an inode with links that is not the
directory itself.  Without this `sys_unlink` may panic, and may wait for a lock
that its own process has.
-/

variable {position : Nat} {nodes : Nat → Node} {name : Name}

section

variable {live : Prop} {base : Index → Int} {store after : Store} {dp ip : Index} {inum : Nat}
  {dpNode ipNode : Node}

/-! ## Giving up what is locked -/

theorem unlocked_update (ip : Index) : update (fun _ : Index => false) ip false = fun _ => false :=
  update_eq_self_iff.mpr rfl

section

variable (pair : Pair base store after dp ip inum dpNode ipNode)
include pair

theorem Pair.refs_comm : after.refs = base + Pi.single ip 1 + Pi.single dp 1 := by
  rw [pair.refs]
  abel

theorem Pair.locks_dp : update after.locks dp false = update (fun _ => false) ip true := by
  rw [pair.locks, update_comm pair.index_ne.symm, update_idem, unlocked_update dp]

theorem Pair.locks_ip : update after.locks ip false = update (fun _ => false) dp true := by
  rw [pair.locks, update_idem, update_comm pair.index_ne, unlocked_update ip]

end

theorem Pair.unlinkBad_wp
    (pair : Pair base store after dp ip inum (store.nodes (store.icache dp).inum)
      (store.nodes inum)) (inOp : store.inOp = true)
    (tree : live → Tree store.sb.ninodes store.nodes) :
    Wp (do
      iunlockput ip
      unlinkBad dp) after
      (fun _ final => Ends live live base store final)
      (Stops live live store) := by
  have nonneg := add_single_nonneg pair.nonneg dp
  have nodes : after.nodes = store.nodes := by
    rw [pair.nodes, update_eq_self, update_eq_self]
  have same : Passes live base store after := by
    refine ⟨pair.sb, pair.inOp.trans inOp.symm, pair.inums, ?_, ?_, Followed.of_eq pair.lookups⟩
    · intro other _
      rw [nodes]
    · rw [nodes]
      exact Collects.refl _
  rw [wp_bind]
  refine (iunlockput_left live pair.consistent pair.refs (nonneg ip) pair.lockedIp pair.inOp).total ?_
  intro _ second left
  have lockedDp : second.locks dp = true := by
    rw [left.locks, pair.locks_ip, update_self]
  rw [unlinkBad, wp_bind]
  refine (iunlockput_left live left.consistent left.refs (pair.nonneg dp) lockedDp
    (left.passes.inOp.trans pair.inOp)).total ?_
  intro _ third last
  have early := left.passes.mono fun other positive => add_single_pos_of_pos dp positive
  apply Ends.endOp_wp
  apply Ends.of_passes ((same.trans early).trans last.passes) last.consistent last.refs _ tree
  rw [last.locks, left.locks, pair.locks_ip, update_idem, unlocked_update dp]

theorem Pair.unlinked_wp (pair : Pair base store after dp ip inum dpNode ipNode)
    (typeDp : dpNode.type = (store.nodes (store.icache dp).inum).type)
    (typeIp : ipNode.type = (store.nodes inum).type)
    (tree : live → Tree store.sb.ninodes
      (update after.nodes inum { ipNode with nlink := ipNode.nlink - 1 })) :
    Wp (do
      iunlockput dp
      setDinode ip fun dinode => { dinode with nlink := dinode.nlink - 1 }
      iupdate ip
      iunlockput ip
      endOp
      return (0 : Int)) after
      (fun _ final => Ends live live base store final)
      (Stops live live store) := by
  have nonneg := add_single_nonneg pair.nonneg ip
  have positiveIp := add_single_pos pair.nonneg ip
  rw [wp_bind]
  refine (iunlockput_left live pair.consistent pair.refs_comm (nonneg dp) pair.lockedDp
    pair.inOp).total ?_
  intro _ second left
  have early := left.passes
  have inOp : second.inOp = true := early.inOp.trans pair.inOp
  have locks : second.locks = update (fun _ => false) ip true := by
    rw [left.locks, pair.locks_dp]
  have locked : second.locks ip = true := by
    rw [locks, update_self]
  have held : 0 < second.refs ip := by
    rw [left.refs]
    exact positiveIp
  have inumIp : (second.icache ip).inum = inum := by
    rw [early.inum ip positiveIp, pair.inumIp]
  have nodeIp : second.nodes inum = ipNode := by
    have kept := early.kept ip positiveIp
    rw [pair.nodeIp, pair.inumIp] at kept
    exact kept
  refine assign_wp left.consistent held locked inOp
    (by exact fun _ => rfl) (by exact fun _ => rfl) (by exact fun _ => rfl) ?_
  intro third altered
  have nlink := (left.consistent.toIntact.nodes_eq held locked).2
  rw [inumIp, nodeIp] at nlink
  rw [inumIp, nodeIp, ← nlink] at altered
  have edited := altered.edited
  have nodes : third.nodes =
      update second.nodes inum { ipNode with nlink := ipNode.nlink - 1 } := by
    rw [← inumIp]
    exact altered.nodes
  have refs : third.refs = base + Pi.single ip 1 := by
    rw [edited.refs, left.refs]
  have lockedThird : third.locks ip = true := by
    rw [edited.locks, locked]
  rw [wp_bind]
  refine (iunlockput_left live altered.consistent refs (pair.nonneg ip) lockedThird
    (edited.inOp.trans inOp)).total ?_
  intro _ fourth last
  have late := last.passes
  have inums : ∀ other, 0 < base other → (third.icache other).inum = (store.icache other).inum := by
    intro other positive
    rw [edited.inum_eq, early.inum other (add_single_pos_of_pos ip positive),
      pair.inums other positive]
  apply Ends.endOp_wp
  refine ⟨last.consistent, last.refs, ?_, ?_, ?_, ?_, ?_, ?_⟩
  · rw [last.locks, edited.locks, locks, update_idem, unlocked_update ip]
  · rw [late.sb, edited.sb, early.sb, pair.sb]
  · intro other positive
    rw [late.inum other positive, inums other positive]
  · intro other positive _
    have keptLate := late.kept other positive
    have keptEarly := early.kept other (add_single_pos_of_pos ip positive)
    rw [inums other positive] at keptLate
    rw [pair.inums other positive] at keptEarly
    rw [keptLate, nodes]
    by_cases isIp : (store.icache other).inum = inum
    · rw [isIp, update_self, ← typeIp]
    · rw [update_of_ne isIp, keptEarly, pair.nodes, update_of_ne isIp]
      by_cases isDp : (store.icache other).inum = (store.icache dp).inum
      · rw [isDp, update_self, typeDp]
      · rw [update_of_ne isDp]
  · intro isLive
    apply late.nodes.tree
    apply Collects.tree _ (tree isLive)
    intro other
    rw [nodes]
    by_cases isIp : other = inum
    · subst isIp
      rw [update_self, update_self]
      exact Or.inl rfl
    · rw [update_of_ne isIp, update_of_ne isIp]
      exact early.nodes other
  · apply (Followed.of_eq pair.lookups).trans
    apply early.followed.trans
    exact (Followed.of_eq edited.lookups).trans late.followed

/-! ## Clearing the entry -/

theorem Pair.clear_wp (pair : Pair base store after dp ip inum dpNode ipNode)
    (isDir : dpNode.type = T_DIR) {old : Dirent} (isEntry : dpNode.entries[position]? = some old) :
    Wp (writei dp (.kernel (Dirent.bytes Dirent.empty)) (direntSize * position) direntSize) after
      (fun written next => written = direntSize ∧
        Pair base store next dp ip inum (dpNode.put position Dirent.empty) ipNode)
      fun stop next => Exhausted stop ∧ next.lookups = store.lookups := by
  have node := pair.nodeDp
  have isDirStill : (after.nodes (after.icache dp).inum).type = T_DIR := by
    rw [node, isDir]
  have directory := pair.consistent.toIntact.directory pair.heldDp pair.lockedDp isDirStill
  have isList := directory.entries_eq
  rw [node] at isList
  have inside : position < dpNode.entries.length := (List.getElem?_eq_some_iff.mp isEntry).1
  have limit := directory.length_le
  have size := directory.size
  rw [isList] at limit size
  have most := Nat.mul_le_mul_left direntSize (Nat.succ_le_of_lt inside)
  have bound : MAXFILE * BSIZE < 2 ^ 32 := by decide
  rw [Nat.mul_succ] at most
  rcases pair.consistent.editing pair.heldDp pair.lockedDp pair.inOp with
    ⟨editing, view, holeFree⟩
  refine (writei_wp editing view holeFree (Or.inl (Source.total_kernel _)) (by omega)
    (by decide)).mono ?_ ?_
  · rintro written next ⟨_, accepted⟩
    have writable : ¬ Unwritable (after.icache dp).dinode.size.toNat (direntSize * position)
        direntSize := by
      rw [Unwritable, size]
      omega
    rcases accepted writable with ⟨isWritten, written⟩
    have inRange : Dirent.empty.inum < after.sb.ninodes :=
      Nat.lt_of_le_of_lt (Nat.zero_le _) ((pair.consistent.agrees dp).inRange pair.heldDp)
    have put := written.put pair.consistent pair.heldDp pair.lockedDp isDirStill
      Dirent.fits_empty inRange (by rw [node]; exact Nat.le_of_lt inside)
    rw [node] at put
    exact ⟨isWritten, pair.alterDp put⟩
  · rintro stop next ⟨_, isStop, _, lookups⟩
    exact ⟨Or.inl isStop, lookups.trans pair.lookups⟩

/-- The count of a directory from which another one is removed. -/
def dotdotUnlinks (nlink type : BitVec 16) : BitVec 16 :=
  if type = T_DIR then nlink - 1 else nlink

theorem Pair.unlinkDotdot_wp (pair : Pair base store after dp ip inum dpNode ipNode) :
    Wp (unlinkDotdot dp ip) after
      fun _ next => Pair base store next dp ip inum
        { dpNode with nlink := dotdotUnlinks dpNode.nlink ipNode.type } ipNode := by
  have type := (pair.consistent.toIntact.nodes_eq pair.heldIp pair.lockedIp).1
  rw [pair.nodeIp] at type
  rw [unlinkDotdot, wp_bind, wp_get, ← type]
  by_cases isDir : ipNode.type = T_DIR
  · have inOp : (after.withDinode dp fun dinode =>
        { dinode with nlink := dinode.nlink - 1 }).inOp = true := pair.inOp
    rw [if_pos isDir, wp_bind, wp_setDinode]
    refine (iupdate_wp inOp).imp ?_
    intro _ next isNext
    have altered : Altered after next dp { after.nodes (after.icache dp).inum with
        nlink := (after.icache dp).dinode.nlink - 1 } := by
      rw [isNext]
      exact pair.consistent.assign pair.heldDp pair.lockedDp pair.inOp (fun _ => rfl)
        (fun _ => rfl) fun _ => rfl
    have nlink := (pair.consistent.toIntact.nodes_eq pair.heldDp pair.lockedDp).2
    rw [pair.nodeDp] at nlink altered
    rw [← nlink] at altered
    rw [dotdotUnlinks, if_pos isDir]
    exact pair.alterDp altered
  · rw [if_neg isDir, wp_pure, dotdotUnlinks, if_neg isDir]
    exact pair

theorem Pair.isFullDirectory_wp (pair : Pair base store after dp ip inum dpNode ipNode) :
    Wp (isFullDirectory ip) after
      fun full next => next = after ∧
        (full = false → ipNode.type = T_DIR → ∀ entry ∈ ipNode.children, entry.inum = 0) := by
  have node := pair.nodeIp
  have type := (pair.consistent.toIntact.nodes_eq pair.heldIp pair.lockedIp).1
  rw [node] at type
  rw [isFullDirectory, wp_bind, wp_get, ← type]
  by_cases isDir : ipNode.type = T_DIR
  · have isDirStill : (after.nodes (after.icache ip).inum).type = T_DIR := by
      rw [node, isDir]
    have directory := pair.consistent.toIntact.directory pair.heldIp pair.lockedIp isDirStill
    have isList := directory.entries_eq
    rw [node] at isList
    rw [if_pos isDir]
    refine directory.isdirempty_wp.seq ?_
    rintro empty next ⟨same, isEmpty⟩
    rw [isList] at isEmpty
    rw [wp_pure]
    refine ⟨same, ?_⟩
    intro full _
    apply isEmpty.mp
    rw [← Bool.not_not empty, full, Bool.not_false]
  · rw [if_neg isDir, wp_pure]
    exact ⟨rfl, fun _ impossible => absurd impossible isDir⟩

/-! ## The call -/

theorem Tree.child_of_entry {count dir : Nat} {entry : Dirent}
    (tree : Tree count nodes) (isDir : (nodes dir).type = T_DIR)
    (isEntry : (nodes dir).entries[position]? = some entry)
    (proper : ¬ (entry.name = dotName ∨ entry.name = dotdotName)) :
    ∃ index, position = index + 2 ∧ (nodes dir).children[index]? = some entry := by
  rw [tree.dots dir isDir] at isEntry
  match position with
  | 0 =>
    cases isEntry
    exact absurd (Or.inl rfl) proper
  | 1 =>
    cases isEntry
    exact absurd (Or.inr rfl) proper
  | index + 2 => exact ⟨index, rfl, isEntry⟩

theorem toNat_sub_one {nlink : BitVec 16} (positive : 0 < nlink.toNat) :
    (nlink - 1).toNat + 1 = nlink.toNat := by
  rw [BitVec.toNat_sub]
  have bound := nlink.isLt
  have one : (1 : BitVec 16).toNat = 1 := rfl
  omega

/-- The changes of `sys_unlink` are a move of the tree. -/
theorem Tree.unlink {count dir : Nat} {made : Nat → Node}
    (tree : Tree count nodes) (isDir : (nodes dir).type = T_DIR)
    (isEntry : (nodes dir).entries[position]? = some ⟨inum, name⟩) (nonzero : inum ≠ 0)
    (proper : ¬ (name = dotName ∨ name = dotdotName)) (different : inum ≠ dir)
    (childless : (nodes inum).type = T_DIR → ∀ entry ∈ (nodes inum).children, entry.inum = 0)
    (isMade : made = update (update nodes dir
      { (nodes dir).put position Dirent.empty with
        nlink := dotdotUnlinks (nodes dir).nlink (nodes inum).type }) inum
      { nodes inum with nlink := (nodes inum).nlink - 1 }) : Tree count made := by
  rcases tree.child_of_entry isDir isEntry proper with ⟨index, isPosition, isChild⟩
  have member := List.mem_of_getElem? isChild
  have linked := tree.linked_of_child member nonzero
  have positive : 0 < (nodes inum).nlink.toNat := by
    rw [Nat.pos_iff_ne_zero]
    exact fun zero => linked.2 (BitVec.eq_of_toNat_eq zero)
  have madeIp : made inum = { nodes inum with nlink := (nodes inum).nlink - 1 } := by
    rw [isMade, update_self]
  have madeDir : made dir = { (nodes dir).put position Dirent.empty with
      nlink := dotdotUnlinks (nodes dir).nlink (nodes inum).type } := by
    rw [isMade, update_of_ne different.symm, update_self]
  have removed : Removed nodes made dir inum index name := by
    refine ⟨isChild, nonzero, different, childless, ?_, ?_, ?_, ?_, ?_⟩
    · rw [madeIp]
    · rw [madeIp]
      exact toNat_sub_one positive
    · rw [madeDir, isPosition]
    · rw [madeDir]
      show (dotdotUnlinks (nodes dir).nlink (nodes inum).type).toNat + _ = _
      rw [dotdotUnlinks]
      by_cases isSubdir : (nodes inum).type = T_DIR
      · have two := tree.two_le_nlink member isSubdir
        rw [if_pos isSubdir, if_pos isSubdir]
        exact toNat_sub_one (by omega)
      · rw [if_neg isSubdir, if_neg isSubdir, Nat.add_zero]
    · intro other notDir notIp
      rw [isMade, update_of_ne notIp, update_of_ne notDir]
  exact removed.tree tree

theorem Pair.unlinkEntry_wp
    (pair : Pair base store after dp ip inum (store.nodes (store.icache dp).inum)
      (store.nodes inum)) (inOp : store.inOp = true) (shape : live → Shaped store)
    (isDir : (store.nodes (store.icache dp).inum).type = T_DIR)
    (isEntry : (store.nodes (store.icache dp).inum).entries[position]? = some ⟨inum, name⟩)
    (nonzero : inum ≠ 0) (proper : ¬ (name = dotName ∨ name = dotdotName)) :
    Wp (unlinkEntry dp ip (direntSize * position)) after
      (fun _ final => Ends live live base store final)
      (Stops live live store) := by
  have nlink := (pair.consistent.toIntact.nodes_eq pair.heldIp pair.lockedIp).2
  rw [pair.nodeIp] at nlink
  rw [unlinkEntry, wp_bind, wp_get, wp_ite, ← nlink]
  by_cases unlinked : (store.nodes inum).nlink.toInt < 1
  · rw [if_pos unlinked, wp_throw]
    refine ⟨Or.inr (Or.inr ⟨?_, Or.inr rfl⟩), Followed.of_eq pair.lookups⟩
    intro isLive
    rcases shape isLive with ⟨tree, bounded⟩
    rcases tree.child_of_entry isDir isEntry proper with ⟨index, _, isChild⟩
    have linked := tree.linked_of_child (List.mem_of_getElem? isChild) nonzero
    have small := bounded inum
    apply linked.2
    apply BitVec.eq_of_toNat_eq
    rw [BitVec.toInt_eq_toNat_of_lt (by omega)] at unlinked
    exact Nat.lt_one_iff.mp (Int.ofNat_lt.mp unlinked)
  · rw [if_neg unlinked, wp_bind]
    refine pair.isFullDirectory_wp.total ?_
    rintro full same ⟨isSame, childless⟩
    subst isSame
    cases full with
    | true => exact pair.unlinkBad_wp inOp fun isLive => (shape isLive).1
    | false =>
      rw [if_neg Bool.false_ne_true, wp_bind]
      refine (pair.clear_wp isDir isEntry).mono ?_ ?_
      · rintro written cleared ⟨isWritten, pair⟩
        rw [isWritten, if_neg (not_not.mpr rfl), wp_bind]
        refine pair.unlinkDotdot_wp.total ?_
        intro _ counted pair
        apply pair.unlinked_wp rfl rfl
        intro isLive
        apply (shape isLive).1.unlink isDir isEntry nonzero proper pair.different (childless rfl)
        rw [pair.nodes, update_idem]
        rfl
      · rintro stop next ⟨exhausted, lookups⟩
        exact Stops.exhausted exhausted (Followed.of_eq lookups)

section

variable (walking : Walking live base store dp) (shape : live → Shaped store)
include walking shape

/-- The entry that `sys_unlink` has found is not that of the directory itself,
unless the nodes are no tree. -/
theorem Walking.unlinkFound_wp {middle : Store}
    (isDir : (store.nodes (store.icache dp).inum).type = T_DIR)
    (isEntry : (store.nodes (store.icache dp).inum).entries[position]? = some ⟨inum, name⟩)
    (nonzero : inum ≠ 0) (proper : ¬ (name = dotName ∨ name = dotdotName))
    (got : Got ((store.locking dp).noted (store.icache dp).inum ⟨inum, name⟩) middle ip inum) :
    Wp (do
      ilock ip
      unlinkEntry dp ip (direntSize * position)) middle
      (fun _ final => Ends live live base store final)
      (Stops live live store) := by
  have entered := walking.entered isDir isEntry nonzero got
  have followed := entered.passes.followed
  have nonneg := add_single_nonneg walking.nonneg ip
  have heldDp : 0 < middle.refs dp := by
    rw [entered.refs]
    exact add_single_pos nonneg dp
  have heldIp : 0 < middle.refs ip := by
    rw [entered.refs]
    exact add_single_pos_of_pos dp (add_single_pos walking.nonneg ip)
  have inumDp : (middle.icache dp).inum = (store.icache dp).inum := by
    have entry := got.entry dp (Store.refs_locking_pos walking.held)
    rw [entry]
    exact Store.inum_locking dp
  rw [wp_bind]
  by_cases same : ip = dp
  · subst same
    have locked : (middle.icache ip).locked = true := by
      have isLocked : middle.locks ip = true := by
        rw [entered.locks, update_self]
      exact isLocked
    have counted : ¬ (middle.icache ip).ref < 1 := by
      have positive : 0 < (middle.icache ip).ref := heldIp
      omega
    simp only [ilock, wp_bind, wp_get, wp_ite, if_neg counted, if_pos locked, wp_throw]
    refine ⟨Or.inr (Or.inr ⟨?_, Or.inl rfl⟩), followed⟩
    intro isLive
    have tree := (shape isLive).1
    rcases tree.child_of_entry isDir isEntry proper with ⟨index, _, isChild⟩
    apply tree.child_ne_self (List.mem_of_getElem? isChild)
    rw [← inumDp, entered.isInum]
  · have unlocked : middle.locks ip = false := by
      rw [entered.locks, update_of_ne same]
    refine (Fs.ilock_wp entered.consistent.toIntact heldIp unlocked).mono ?_ ?_
    · rintro _ locked ⟨isLocked, typed⟩
      subst isLocked
      have different : inum ≠ (middle.icache dp).inum := by
        rw [← entered.isInum]
        exact fun isSame => same (entered.consistent.single ip dp heldIp heldDp isSame)
      have pair : Pair base middle (middle.locking ip) dp ip inum
          (middle.nodes (middle.icache dp).inum) (middle.nodes inum) := by
        refine ⟨entered.consistent.locking heldIp typed, ?_, ?_, rfl, entered.inOp, rfl, ?_, ?_, ?_,
          ?_, walking.nonneg, different⟩
        · rw [Store.locks_locking, entered.locks]
        · rw [Store.refs_locking, entered.refs]
          abel
        · exact Store.inum_locking dp
        · rw [Store.inum_locking, entered.isInum]
        · exact fun other _ => Store.inum_locking other
        · rw [update_eq_self, update_eq_self]
          rfl
      rw [← inumDp, ← entered.nodes] at isDir isEntry
      refine (pair.unlinkEntry_wp entered.inOp (fun isLive => entered.passes.shape (shape isLive))
        isDir isEntry nonzero proper).mono ?_ fun stop final stops => stops.later followed
      intro _ final ends
      exact Ends.later entered.passes ends
    · rintro stop final ⟨isStop, lookups, free⟩
      refine ⟨Or.inr (Or.inl ⟨isStop, ?_⟩), followed.trans (Followed.of_eq lookups)⟩
      intro isLive
      apply (entered.linked isLive).1
      rw [← entered.nodes, ← entered.isInum]
      exact free

theorem Walking.unlinkBad_wp (typed : (store.nodes (store.icache dp).inum).type ≠ 0) :
    Wp (unlinkBad dp) (store.locking dp) (fun _ final => Ends live live base store final)
      (Stops live live store) := by
  rw [unlinkBad]
  refine (walking.fails_wp false typed).seq ?_
  intro _ after walked
  exact (walked.ends shape).endOp_wp

theorem Walking.unlink_wp
    (isDir : (store.nodes (store.icache dp).inum).type = T_DIR) (name : Name) :
    Wp (do
      ilock dp
      if name = dotName ∨ name = dotdotName then unlinkBad dp
      else
        match ← dirlookup dp name with
        | none => unlinkBad dp
        | some (ip, off) =>
          ilock ip
          unlinkEntry dp ip off) store
      (fun _ final => Ends live live base store final)
      (Stops live live store) := by
  refine walking.ilock_wp.seq ?_
  rintro _ locked ⟨isLocked, typed⟩
  subst isLocked
  rw [wp_ite]
  by_cases isDot : name = dotName ∨ name = dotdotName
  · rw [if_pos isDot]
    exact walking.unlinkBad_wp shape typed
  · rw [if_neg isDot]
    refine (walking.dirlookup_wp name isDir).seq ?_
    rintro result middle ⟨lookedUp, _⟩
    cases lookedUp with
    | missing absent => exact walking.unlinkBad_wp shape typed
    | found position inum isEntry isNonzero got =>
      rw [Store.inum_locking] at isEntry got
      exact walking.unlinkFound_wp shape isDir isEntry isNonzero isDot got

end

theorem Starts.sysUnlink_wp {cwd : Index} (starts : Starts live store cwd) {path : Option Path}
    (nonzero : ∀ path' ∈ path, 0 ∉ path') (rooted : live → ∀ path' ∈ path, Rooted store cwd path') :
    Wp (sysUnlink cwd path) store (fun _ final => Ends live live store.refs store final)
      (Stops live live store) := by
  cases path with
  | none =>
    rw [sysUnlink, wp_pure]
    exact starts.unchanged
  | some path =>
    rw [sysUnlink, wp_bind, wp_beginOp, wp_bind]
    refine (nameiparent_wp starts.ready (fun isLive => rooted isLive path rfl)
      (nonzero path rfl)).mono ?_ fun _ _ stops => stops.begun
    intro result middle walked
    cases result with
    | none => exact walked.endOp_wp starts.shape
    | some found =>
      have walking := walked.walking rfl starts.consistent.toIntact.refs_nonneg starts.ready.closed
      refine (walking.unlink_wp (fun isLive => walked.passes.shape (starts.shape isLive))
        (walked.name _ rfl rfl).1 found.2).mono ?_ ?_
      · intro _ after ends
        exact (Ends.later walked.passes ends).begun
      · intro stop after stops
        exact (stops.later walked.passes.followed).begun

end

end Fs
end Xv6
