import Xv6.Fs.Walk

namespace Xv6
namespace Fs

open Foundation Function Store
open Buffer (Block Stop)

/-!
# Making names

`dirlink` writes an entry into a directory, and `create` and `sys_link` bring
about what the entry says: a new inode, the dots of a new directory, the counts
of links.  In between, the counts and the entries disagree.  What a call has
done to the nodes is collected along the way and compared with a move of the
tree at the end.
-/

/-! ## `dirlink` -/

/-- The entry was written, into an empty place or at the end. -/
def DirAdded (store : Store) (dp : Index) (name : Name) (inum : Nat) (after : Store) : Prop :=
  ∃ position, position ≤ (store.nodes (store.icache dp).inum).entries.length ∧
    (∀ old, (store.nodes (store.icache dp).inum).entries[position]? = some old → old.inum = 0) ∧
    Altered store after dp ((store.nodes (store.icache dp).inum).put position ⟨inum, name⟩)

/-- What `dirlink` returns. -/
inductive DirLinked (live : Prop) (store : Store) (dp : Index) (name : Name) (inum : Nat) :
    Int → Store → Prop where
  | present {after : Store} (consistent : Consistent after)
      (passes : Passes live store.refs store after) (refs : after.refs = store.refs)
      (locks : after.locks = store.locks) (nodes : after.nodes = store.nodes)
      (entry : ∀ other, 0 < store.refs other → after.icache other = store.icache other) :
      DirLinked live store dp name inum (-1) after
  | added {after : Store}
      (absent : ∀ entry ∈ (store.nodes (store.icache dp).inum).entries, entry.inum ≠ 0 →
        entry.name ≠ name) (added : DirAdded store dp name inum after) :
      DirLinked live store dp name inum 0 after

variable {middle after before : Store}

section

variable {live shaped : Prop} {store : Store} {dp : Index} {name : Name} {inum : Nat}

theorem dirlink_found {ip : Index} {found : Nat} (consistent : Consistent store)
    (inOp : store.inOp = true)
    (got : Got (store.noted (store.icache dp).inum ⟨found, name⟩) middle ip found)
    (typed : live → (store.nodes found).type ≠ 0) :
    Wp (do
      iput ip
      return -1) middle (DirLinked live store dp name inum) (Stops live shaped store) := by
  have noted : Consistent (store.noted (store.icache dp).inum ⟨found, name⟩) := consistent.unread
  have refs : middle.refs = store.refs + Pi.single ip 1 := got.refs
  have locks : middle.locks = store.locks := got.locks noted.toIntact
  have nonneg := consistent.refs_nonneg ip
  have inOpMiddle : middle.inOp = true := by
    rw [got.store]
    exact inOp
  have unlocked : store.refs ip = 0 → middle.locks ip = false := by
    intro empty
    rw [locks]
    exact (consistent.agrees ip).unlocked empty
  rw [wp_bind]
  refine (iput_wp (got.consistent noted) refs nonneg unlocked inOpMiddle).total ?_
  intro _ after released
  rw [wp_pure]
  have entry : ∀ other, 0 < store.refs other → after.icache other = store.icache other := by
    intro other positive
    rw [released.entry other positive, got.entry other positive]
    rfl
  have nodes : after.nodes = store.nodes := by
    rcases released.nodes with same | ⟨last, valid, _, _⟩
    · rw [same]
      exact got.nodes
    · have unread := (got.miss last).1
      rw [valid] at unread
      cases unread
  refine .present released.consistent ?_ released.refs ?_ nodes entry
  · exact (got.passes typed).trans (released.passes got.intact refs)
  · rw [released.locks, locks]

variable (consistent : Consistent store) (held : 0 < store.refs dp) (locked : store.locks dp = true)
  (inOp : store.inOp = true) (isDir : (store.nodes (store.icache dp).inum).type = T_DIR)
  (fits : Dirent.Fits ⟨inum, name⟩) (inRange : inum < store.sb.ninodes)
include consistent held locked inOp isDir fits inRange

theorem dirlink_missing :
    Wp (do
      let size := ((← get).icache dp).dinode.size.toNat
      let off ← emptyDirent dp 0 (size / direntSize + 1)
      let written ← writei dp (.kernel (Dirent.bytes ⟨inum, name⟩)) off direntSize
      if written ≠ direntSize then throw (.panic .dirlink) else return (0 : Int)) store
      (fun result after => result = 0 ∧ DirAdded store dp name inum after)
      fun stop after => Exhausted stop ∧ after.lookups = store.lookups := by
  have directory := consistent.toIntact.directory held locked isDir
  have isList := directory.entries_eq
  have length := directory.size_div
  simp only [wp_bind, wp_get]
  rw [length]
  refine (directory.emptyDirent_wp 0 (by omega) (Nat.zero_le _)).total ?_
  rintro off middle ⟨isMiddle, position, isOff, inside, empty⟩
  subst isMiddle isOff
  rcases consistent.editing held locked inOp with ⟨editing, view, holeFree⟩
  have small : direntSize * position < 2 ^ 32 := by
    have bound := directory.length_le
    have most := Nat.mul_le_mul_left direntSize inside
    have limit : MAXFILE * BSIZE < 2 ^ 32 := by decide
    omega
  refine (writei_wp editing view holeFree (Or.inl (Source.total_kernel _)) small
    (by decide)).mono ?_ ?_
  · rintro written after ⟨refused, accepted⟩
    by_cases unwritable : Unwritable (middle.icache dp).dinode.size.toNat
        (direntSize * position) direntSize
    · rw [(refused unwritable).1, (refused unwritable).2, if_pos (by decide), wp_throw]
      exact ⟨Or.inr (Or.inr (Or.inr rfl)), rfl⟩
    · rcases accepted unwritable with ⟨isWritten, written⟩
      rw [isWritten, if_neg (by simp), wp_pure]
      rw [isList] at inside empty
      exact ⟨rfl, position, inside, empty,
        written.put consistent held locked isDir fits inRange inside⟩
  · rintro stop after ⟨_, isStop, _, lookups⟩
    exact ⟨Or.inl isStop, lookups⟩

theorem dirlink_absent_wp
    (absent : ∀ entry ∈ (store.nodes (store.icache dp).inum).entries, entry.inum ≠ 0 →
      entry.name ≠ name) :
    Wp (dirlink dp name inum) store
      (fun result after => result = 0 ∧ DirAdded store dp name inum after)
      fun stop after => Exhausted stop ∧ after.lookups = store.lookups := by
  rw [dirlink, wp_bind]
  refine (dirlookup_wp consistent.toIntact held locked isDir).mono ?_ ?_
  · rintro result middle ⟨lookedUp, _⟩
    cases lookedUp with
    | found position found isEntry nonzero _ =>
      exact absurd rfl (absent _ (List.mem_of_getElem? isEntry) nonzero)
    | missing _ => exact dirlink_missing consistent held locked inOp isDir fits inRange
  · rintro stop middle ⟨_, _, found, nonzero, member, _⟩
    exact absurd rfl (absent _ member nonzero)

theorem dirlink_wp (closed : live → Closed store.nodes)
    (linked : live → (store.nodes (store.icache dp).inum).Linked) :
    Wp (dirlink dp name inum) store (DirLinked live store dp name inum)
      (Stops live shaped store) := by
  have typed : ∀ found, ⟨found, name⟩ ∈ (store.nodes (store.icache dp).inum).entries →
      found ≠ 0 → live → (store.nodes found).type ≠ 0 := by
    intro found member nonzero isLive
    have dirLive := (linked isLive).live isDir
    exact ((closed isLive).linked _ dirLive _ member nonzero).1
  rw [dirlink, wp_bind]
  refine (dirlookup_wp consistent.toIntact held locked isDir).mono ?_ ?_
  · rintro result middle ⟨lookedUp, _⟩
    cases lookedUp with
    | found position found isEntry nonzero got =>
      exact dirlink_found consistent inOp got (typed found (List.mem_of_getElem? isEntry) nonzero)
    | missing absent =>
      refine (dirlink_missing consistent held locked inOp isDir fits inRange).mono ?_ ?_
      · rintro result after ⟨isZero, added⟩
        rw [isZero]
        exact .added absent added
      · rintro stop after ⟨exhausted, lookups⟩
        exact Stops.exhausted exhausted (Followed.of_eq lookups)
  · rintro stop middle ⟨isStop, _, found, nonzero, member, isMiddle⟩
    exact Stops.exhausted (Or.inr (Or.inr (Or.inl isStop)))
      (Followed.of_noted (congrArg Store.lookups isMiddle) (typed found member nonzero))

end

/-! ## How calls end -/

/-- The state of the file system after a call, or a part of one.  The inodes to
which `base` has references keep their numbers and types, and the nodes are
still a tree.  Unless it says otherwise, these references are left and no lock. -/
structure Ends (live shaped : Prop) (base : Index → Int) (before after : Store)
    (refs : Index → Int := base) (locks : Index → Bool := fun _ => false) : Prop where
  consistent : Consistent after
  refs : after.refs = refs
  locks : after.locks = locks
  sb : after.sb = before.sb
  inum : ∀ other, 0 < base other → (after.icache other).inum = (before.icache other).inum
  type : ∀ other, 0 < base other → (before.nodes (before.icache other).inum).type ≠ 0 →
    (after.nodes (before.icache other).inum).type = (before.nodes (before.icache other).inum).type
  tree : shaped → Tree before.sb.ninodes after.nodes
  followed : Followed live before after

/-- The nodes are a tree in which every count can be increased. -/
def Shaped (store : Store) : Prop :=
  Tree store.sb.ninodes store.nodes ∧ ∀ inum, (store.nodes inum).nlink.toNat < 32767

section

variable {live shaped : Prop} {base refs : Index → Int} {locks : Index → Bool}

theorem Ends.of_passes (passes : Passes live base before after) (consistent : Consistent after)
    (isRefs : after.refs = refs) (isLocks : after.locks = locks)
    (tree : shaped → Tree before.sb.ninodes before.nodes) :
    Ends live shaped base before after refs locks := by
  refine ⟨consistent, isRefs, isLocks, passes.sb, passes.inum, ?_, ?_, passes.followed⟩
  · intro other positive _
    rw [passes.kept other positive]
  · intro isShaped
    exact passes.nodes.tree (tree isShaped)

theorem Ends.later (passes : Passes live base before middle)
    (ends : Ends live shaped base middle after refs locks) :
    Ends live shaped base before after refs locks := by
  refine ⟨ends.consistent, ends.refs, ends.locks, ends.sb.trans passes.sb, ?_, ?_, ?_,
    passes.followed.trans ends.followed⟩
  · intro other positive
    rw [ends.inum other positive, passes.inum other positive]
  · intro other positive typed
    have kept := passes.kept other positive
    have late := ends.type other positive
    rw [passes.inum other positive, kept] at late
    exact late typed
  · intro isShaped
    rw [← passes.sb]
    exact ends.tree isShaped

end

/-! ## A new inode -/

/-- A directory and another inode are locked.  Both have changed, and nothing
else. -/
structure Pair (base : Index → Int) (store after : Store) (dp ip : Index) (inum : Nat)
    (dpNode ipNode : Node) : Prop where
  consistent : Consistent after
  locks : after.locks = update (update (fun _ => false) dp true) ip true
  refs : after.refs = base + Pi.single dp 1 + Pi.single ip 1
  sb : after.sb = store.sb
  inOp : after.inOp = true
  lookups : after.lookups = store.lookups
  inumDp : (after.icache dp).inum = (store.icache dp).inum
  inumIp : (after.icache ip).inum = inum
  inums : ∀ other, 0 < base other → (after.icache other).inum = (store.icache other).inum
  nodes : after.nodes = update (update store.nodes (store.icache dp).inum dpNode) inum ipNode
  nonneg : ∀ other, 0 ≤ base other
  different : inum ≠ (store.icache dp).inum

namespace Pair

variable {base : Index → Int} {store next : Store} {dp ip : Index} {inum : Nat}
  {dpNode ipNode node : Node} (pair : Pair base store after dp ip inum dpNode ipNode)
include pair

theorem index_ne : dp ≠ ip := by
  intro same
  apply pair.different
  rw [← pair.inumIp, ← pair.inumDp, same]

theorem heldIp : 0 < after.refs ip := by
  rw [pair.refs]
  exact add_single_pos (add_single_nonneg pair.nonneg dp) ip

theorem heldDp : 0 < after.refs dp := by
  rw [pair.refs]
  exact add_single_pos_of_pos ip (add_single_pos pair.nonneg dp)

theorem lockedIp : after.locks ip = true := by
  rw [pair.locks, update_self]

theorem lockedDp : after.locks dp = true := by
  rw [pair.locks, update_of_ne pair.index_ne, update_self]

theorem nodeIp : after.nodes (after.icache ip).inum = ipNode := by
  rw [pair.inumIp, pair.nodes, update_self]

theorem nodeDp : after.nodes (after.icache dp).inum = dpNode := by
  rw [pair.inumDp, pair.nodes, update_of_ne pair.different.symm, update_self]

theorem alter {jp : Index} {dpNode' ipNode' : Node} (altered : Altered after next jp node)
    (nodes : next.nodes = update (update store.nodes (store.icache dp).inum
      dpNode') inum ipNode') : Pair base store next dp ip inum dpNode' ipNode' := by
  have edited := altered.edited
  refine { pair with
    consistent := altered.consistent
    locks := ?_, refs := ?_, sb := edited.sb.trans pair.sb
    inOp := edited.inOp.trans pair.inOp, lookups := edited.lookups.trans pair.lookups
    inumDp := ?_, inumIp := ?_, inums := ?_, nodes := nodes }
  · rw [edited.locks, pair.locks]
  · rw [edited.refs, pair.refs]
  · rw [edited.inum_eq, pair.inumDp]
  · rw [edited.inum_eq, pair.inumIp]
  · intro other positive
    rw [edited.inum_eq, pair.inums other positive]

theorem alterIp (altered : Altered after next ip node) :
    Pair base store next dp ip inum dpNode node := by
  apply pair.alter altered
  rw [altered.nodes, pair.inumIp, pair.nodes, update_idem]

theorem alterDp (altered : Altered after next dp node) :
    Pair base store next dp ip inum node ipNode := by
  apply pair.alter altered
  rw [altered.nodes, pair.inumDp, pair.nodes, update_comm pair.different, update_idem]

end Pair

/-- A number that `ialloc` may return. -/
structure New (store : Store) (new : Nat) : Prop where
  nonzero : new ≠ 0
  inRange : new < store.sb.ninodes
  unused : (store.nodes new).type = 0

variable {α : Type} {type major minor : BitVec 16} {stops : Stop → Store → Prop}
  {inum new position : Nat} {dpNode : Node} {name : Name} {parent : Bool}

section

variable {live shaped : Prop} {base : Index → Int} {store : Store} {dp ip : Index}

theorem Walking.ialloc_wp {rest : Index → Kernel α} {returns : α → Store → Prop}
    (walking : Walking live base store dp) (isType : type ≠ 0)
    (typed : (store.nodes (store.icache dp).inum).type ≠ 0)
    (next : ∀ ip after new, New store new → Pair base store after dp ip new
      (store.nodes (store.icache dp).inum) ⟨type, 0, []⟩ → Wp (rest ip) after returns stops)
    (onStop : ∀ stop after, Exhausted stop → after.lookups = store.lookups → stops stop after) :
    Wp (do
      let ip ← ialloc type
      ilock ip
      rest ip) (store.locking dp) returns stops := by
  rcases walking.locking typed with ⟨consistent, lockedDp, heldDp⟩
  rw [wp_bind]
  refine (Fs.ialloc_wp consistent.toIntact walking.inOp).mono ?_ ?_
  · intro ip middle allocated
    have refs : middle.refs = base + Pi.single dp 1 + Pi.single ip 1 := by
      rw [allocated.refs, refs_locking, walking.refs]
    have held : 0 < middle.refs ip := by
      rw [refs]
      exact add_single_pos (add_single_nonneg walking.nonneg dp) ip
    have onDisk : (middle.nodes (middle.icache ip).inum).type = type := by
      rw [allocated.nodes, update_self]
    have inumDp : (middle.icache dp).inum = (store.icache dp).inum := by
      rw [allocated.entry dp heldDp]
      exact inum_locking dp
    rw [wp_bind]
    refine (Fs.ilock_wp allocated.intact held allocated.unread.2).mono ?_ ?_
    · rintro _ after ⟨isAfter, _⟩
      subst isAfter
      rcases allocated.locking consistent isType with ⟨final, locks, _⟩
      have different : (middle.icache ip).inum ≠ (store.icache dp).inum := by
        intro same
        have unused := allocated.unused
        rw [same] at unused
        exact typed unused
      apply next ip _ (middle.icache ip).inum
        ⟨allocated.nonzero, allocated.inRange, allocated.unused⟩
      refine ⟨final, ?_, ?_, allocated.sb, allocated.inOp.trans walking.inOp, allocated.lookups,
        ?_, ?_, ?_, ?_, walking.nonneg, different⟩
      · rw [locks, locks_locking, walking.unlocked]
      · rw [refs_locking, refs]
      · rw [inum_locking, inumDp]
      · rw [inum_locking]
      · intro other positive
        have heldOther : 0 < (store.locking dp).refs other := by
          rw [refs_locking, walking.refs]
          exact add_single_pos_of_pos dp positive
        rw [inum_locking, allocated.entry other heldOther]
        exact inum_locking other
      · have nodes : (middle.locking ip).nodes = middle.nodes := rfl
        have start : (store.locking dp).nodes = store.nodes := rfl
        rw [nodes, allocated.nodes, start, update_eq_self]
    · rintro stop after ⟨_, _, free⟩
      exact absurd (onDisk.symm.trans free) isType
  · rintro stop after ⟨reason, lookups⟩
    refine onStop stop after ?_ lookups
    rcases reason with noInodes | noEntries
    · exact Or.inr (Or.inl noInodes)
    · exact Or.inr (Or.inr (Or.inl noEntries))

/-- An assignment to a locked inode and `iupdate`, before the rest of a call. -/
theorem assign_wp {update : Dinode → Dinode} {rest : Kernel α}
    {returns : α → Store → Prop} (consistent : Consistent store)
    (held : 0 < store.refs ip) (locked : store.locks ip = true) (inOp : store.inOp = true)
    (sameType : ∀ dinode, (update dinode).type = dinode.type)
    (sameSize : ∀ dinode, (update dinode).size = dinode.size)
    (sameAddrs : ∀ dinode, (update dinode).addrs = dinode.addrs)
    (next : ∀ after, Altered store after ip { store.nodes (store.icache ip).inum with
      nlink := (update (store.icache ip).dinode).nlink } → Wp rest after returns stops) :
    Wp (do
      setDinode ip update
      iupdate ip
      rest) store returns stops := by
  have inOpStill : (store.withDinode ip update).inOp = true := inOp
  rw [wp_bind, wp_setDinode, wp_bind]
  refine (iupdate_wp inOpStill).total ?_
  intro _ after isAfter
  subst isAfter
  exact next _ (consistent.assign held locked inOp sameType sameSize sameAddrs)

theorem fits_dot (small : inum < 2 ^ 16) : Dirent.Fits ⟨inum, dotName⟩ :=
  ⟨small, (by decide : dotName.length ≤ DIRSIZ), (by decide : 0 ∉ dotName)⟩

theorem fits_dotdot (small : inum < 2 ^ 16) : Dirent.Fits ⟨inum, dotdotName⟩ :=
  ⟨small, (by decide : dotdotName.length ≤ DIRSIZ), (by decide : 0 ∉ dotdotName)⟩

/-- The entries of a new directory. -/
def dots (new parent : Nat) (type : BitVec 16) : List Dirent :=
  if type = T_DIR then [⟨new, dotName⟩, ⟨parent, dotdotName⟩] else []

/-- The count of a directory in which another one is made. -/
def dotdotLinks (nlink type : BitVec 16) : BitVec 16 :=
  if type = T_DIR then nlink + 1 else nlink

theorem Pair.dot_wp (pair : Pair base store after dp ip new dpNode ⟨T_DIR, 1, []⟩)
    (inRange : new < store.sb.ninodes) :
    Wp (dirlink ip dotName (after.icache ip).inum) after
      (fun result next => result = 0 ∧
        Pair base store next dp ip new dpNode ⟨T_DIR, 1, [⟨new, dotName⟩]⟩)
      fun stop next => Exhausted stop ∧ next.lookups = store.lookups := by
  have small : new < 2 ^ 16 := Nat.lt_of_lt_of_le inRange (by
    rw [← pair.sb]
    exact pair.consistent.whole.layout.numbers)
  have node := pair.nodeIp
  rw [pair.inumIp]
  refine (dirlink_absent_wp pair.consistent pair.heldIp pair.lockedIp pair.inOp ?_
    (fits_dot small) ?_ ?_).mono ?_ ?_
  · rw [node]
  · rw [pair.sb]
    exact inRange
  · rw [node]
    intro entry member
    cases member
  · rintro result next ⟨isZero, position, inside, _, altered⟩
    rw [node] at inside altered
    have first : position = 0 := Nat.le_zero.mp inside
    rw [first] at altered
    exact ⟨isZero, pair.alterIp altered⟩
  · rintro stop next ⟨exhausted, lookups⟩
    exact ⟨exhausted, lookups.trans pair.lookups⟩

theorem Pair.dotdot_wp (pair : Pair base store after dp ip new dpNode ⟨T_DIR, 1, [⟨new, dotName⟩]⟩)
    (nonzero : new ≠ 0) :
    Wp (dirlink ip dotdotName (after.icache dp).inum) after
      (fun result next => result = 0 ∧ Pair base store next dp ip new dpNode
        ⟨T_DIR, 1, [⟨new, dotName⟩, ⟨(store.icache dp).inum, dotdotName⟩]⟩)
      fun stop next => Exhausted stop ∧ next.lookups = store.lookups := by
  have inRange : (after.icache dp).inum < after.sb.ninodes :=
    (pair.consistent.agrees dp).inRange pair.heldDp
  have small : (after.icache dp).inum < 2 ^ 16 :=
    Nat.lt_of_lt_of_le inRange pair.consistent.whole.layout.numbers
  have node := pair.nodeIp
  refine (dirlink_absent_wp pair.consistent pair.heldIp pair.lockedIp pair.inOp ?_
    (fits_dotdot small) inRange ?_).mono ?_ ?_
  · rw [node]
  · rw [node]
    intro entry member _
    rw [List.mem_singleton.mp member]
    exact (by decide : dotName ≠ dotdotName)
  · rintro result next ⟨isZero, position, inside, empty, altered⟩
    rw [node] at inside altered empty
    rw [pair.inumDp] at altered
    have second : position = 1 := by
      have bound : position ≤ 1 := inside
      have notFirst : position ≠ 0 := by
        intro first
        rw [first] at empty
        exact nonzero (empty _ rfl)
      omega
    rw [second] at altered
    exact ⟨isZero, pair.alterIp altered⟩
  · rintro stop next ⟨exhausted, lookups⟩
    exact ⟨exhausted, lookups.trans pair.lookups⟩

theorem Pair.dots_wp (pair : Pair base store after dp ip new dpNode ⟨type, 1, []⟩)
    (isNew : New store new) :
    Wp (createDots dp ip type) after
      (fun _ next => Pair base store next dp ip new
        { dpNode with nlink := dotdotLinks dpNode.nlink type }
        ⟨type, 1, dots new (store.icache dp).inum type⟩)
      fun stop next => Exhausted stop ∧ next.lookups = store.lookups := by
  simp only [createDots]
  split
  · rename_i isDir
    subst isDir
    refine assign_wp pair.consistent pair.heldDp pair.lockedDp pair.inOp
      (by exact fun _ => rfl) (by exact fun _ => rfl) (by exact fun _ => rfl) ?_
    intro counted altered
    have nlink := (pair.consistent.toIntact.nodes_eq pair.heldDp pair.lockedDp).2
    rw [pair.nodeDp] at nlink altered
    dsimp only at altered
    rw [← nlink] at altered
    have next := pair.alterDp altered
    simp only [wp_bind, wp_get]
    refine (next.dot_wp isNew.inRange).imp ?_
    rintro dot second ⟨isZero, withDot⟩
    rw [isZero, if_neg (by decide)]
    simp only [wp_bind, wp_get]
    refine (withDot.dotdot_wp isNew.nonzero).imp ?_
    rintro dotdot third ⟨isZero, withBoth⟩
    rw [isZero, if_neg (by decide), wp_pure]
    exact withBoth
  · rename_i notDir
    rw [wp_pure]
    simp only [dotdotLinks, dots, notDir, if_false]
    exact pair

/-- What `create` returns: a locked inode, which is a directory only if one was
asked for. -/
structure Created (live shaped : Prop) (base : Index → Int) (before : Store) (type : BitVec 16)
    (result : Option Index) (after : Store) : Prop where
  ends : Ends live shaped base before after
    (base + result.elim 0 fun ip => Pi.single ip 1) fun other => decide (result = some other)
  inOp : after.inOp = before.inOp
  typed : ∀ ip ∈ result, (after.nodes (after.icache ip).inum).type ≠ 0
  kind : ∀ ip ∈ result, type ≠ T_DIR → (after.nodes (after.icache ip).inum).type ≠ T_DIR

theorem Created.later {result : Option Index} (passes : Passes live base before middle)
    (created : Created live shaped base middle type result after) :
    Created live shaped base before type result after :=
  ⟨created.ends.later passes, created.inOp.trans passes.inOp, created.typed, created.kind⟩

theorem Collects.bounded {before after : Nat → Node} (collects : Collects before after)
    (bounded : ∀ inum, (before inum).nlink.toNat < 32767) (inum : Nat) :
    (after inum).nlink.toNat < 32767 := by
  rcases collects inum with same | ⟨_, freed⟩
  · rw [same]
    exact bounded inum
  · rw [freed]
    decide

theorem Passes.shape (passes : Passes live base before after)
    (isShaped : Shaped before) : Shaped after := by
  refine ⟨?_, passes.nodes.bounded isShaped.2⟩
  rw [passes.sb]
  exact passes.nodes.tree isShaped.1

theorem toNat_add_one {nlink : BitVec 16} (bounded : nlink.toNat < 32767) :
    (nlink + 1).toNat = nlink.toNat + 1 := by
  have one : (1 : BitVec 16).toNat = 1 := rfl
  rw [BitVec.toNat_add, one]
  exact Nat.mod_eq_of_lt (by omega)

/-- A name that a live directory does not have is no dot, and there is room for
it behind the dots. -/
theorem Tree.behind {count dir : Nat} {nodes : Nat → Node}
    (tree : Tree count nodes) (live : (nodes dir).Live)
    (absent : ∀ entry ∈ (nodes dir).entries, entry.inum ≠ 0 → entry.name ≠ name)
    (empty : ∀ old, (nodes dir).entries[position]? = some old → old.inum = 0) :
    (name ≠ dotName ∧ name ≠ dotdotName) ∧ ∃ index, position = index + 2 ∧
      ∀ old, (nodes dir).children[index]? = some old → old.inum = 0 := by
  have nonzero := tree.ne_zero live.linked.1
  have parentNonzero := tree.ne_zero (tree.parent_live live).linked.1
  rw [tree.dots dir live.1] at absent empty
  refine ⟨⟨?_, ?_⟩, ?_⟩
  · exact (absent _ List.mem_cons_self nonzero).symm
  · exact (absent _ (List.mem_cons_of_mem _ List.mem_cons_self) parentNonzero).symm
  · match position with
    | 0 => exact absurd (empty _ rfl) nonzero
    | 1 => exact absurd (empty _ rfl) parentNonzero
    | index + 2 => exact ⟨index, rfl, empty⟩

theorem Pair.added (pair : Pair base store after dp ip new
      (Node.put { store.nodes (store.icache dp).inum with
        nlink := dotdotLinks (store.nodes (store.icache dp).inum).nlink type } position ⟨new, name⟩)
      ⟨type, 1, dots new (store.icache dp).inum type⟩)
    (isNew : New store new) (isType : type ≠ 0) (shaped : Shaped store)
    (live : (store.nodes (store.icache dp).inum).Live)
    (absent : ∀ entry ∈ (store.nodes (store.icache dp).inum).entries, entry.inum ≠ 0 →
      entry.name ≠ name)
    (empty : ∀ old, (store.nodes (store.icache dp).inum).entries[position]? = some old →
      old.inum = 0) :
    ∃ index, Added store.sb.ninodes store.nodes after.nodes (store.icache dp).inum new index
      name := by
  rcases shaped with ⟨tree, bounded⟩
  rcases tree.behind live absent empty with ⟨proper, index, isPosition, empty⟩
  have isIp := pair.nodeIp
  have isDp := pair.nodeDp
  rw [pair.inumIp] at isIp
  rw [pair.inumDp] at isDp
  refine ⟨index, live, isNew.nonzero, isNew.inRange, pair.different, ?_, proper, ?_, ?_, ?_, ?_,
    ?_, ?_, ?_, empty⟩
  · rw [isNew.unused]
    decide
  · rw [isIp]
    exact isType
  · intro _
    exact isNew.unused
  · rw [isIp]
    rfl
  · rw [isIp, tree.named_of_free isNew.nonzero isNew.unused]
    rfl
  · rw [isDp, isPosition]
    rfl
  · rw [isDp, isIp]
    show (dotdotLinks (store.nodes (store.icache dp).inum).nlink type).toNat = _
    rw [dotdotLinks]
    split
    · exact toNat_add_one (bounded _)
    · rfl
  · intro other notDp notIp
    rw [pair.nodes, update_of_ne notIp, update_of_ne notDp]

theorem Pair.created_wp {ipNode : Node}
    (pair : Pair base store after dp ip new dpNode ipNode) (isNew : New store new)
    (isType : type ≠ 0) (isIp : ipNode.type = type)
    (isDir : dpNode.type = (store.nodes (store.icache dp).inum).type)
    (tree : shaped → Tree store.sb.ninodes after.nodes) (inOp : store.inOp = true) :
    Wp (do
      iunlockput dp
      return some ip) after (Created live shaped base store type) (Stops live shaped store) := by
  have refs : after.refs = (base + Pi.single ip 1) + Pi.single dp 1 := by
    rw [pair.refs]
    abel
  have nonneg := add_single_nonneg pair.nonneg ip
  rw [wp_bind]
  refine (iunlockput_left live pair.consistent refs (nonneg dp) pair.lockedDp pair.inOp).total ?_
  intro _ final left
  rw [wp_pure]
  have passes := left.passes
  have heldIp := add_single_pos pair.nonneg ip
  have inumIp : (final.icache ip).inum = new := by
    rw [passes.inum ip heldIp, pair.inumIp]
  have nodeIp : final.nodes (final.icache ip).inum = ipNode := by
    have kept := passes.kept ip heldIp
    rw [pair.nodeIp, pair.inumIp] at kept
    rw [inumIp, kept]
  refine ⟨⟨left.consistent, left.refs, ?_, ?_, ?_, ?_, ?_, ?_⟩, ?_, ?_, ?_⟩
  · funext other
    rw [left.locks, pair.locks]
    have different := pair.index_ne
    by_cases isDp : other = dp
    · subst isDp
      rw [update_self]
      exact (decide_eq_false fun same => different (Option.some.inj same).symm).symm
    · rw [update_of_ne isDp]
      by_cases isIpIndex : other = ip
      · subst isIpIndex
        rw [update_self]
        exact (decide_eq_true rfl).symm
      · rw [update_of_ne isIpIndex, update_of_ne isDp]
        exact (decide_eq_false fun same => isIpIndex (Option.some.inj same).symm).symm
  · rw [passes.sb, pair.sb]
  · intro other positive
    rw [passes.inum other (add_single_pos_of_pos ip positive), pair.inums other positive]
  · intro other positive typed
    have kept := passes.kept other (add_single_pos_of_pos ip positive)
    rw [pair.inums other positive] at kept
    have notNew : (store.icache other).inum ≠ new := by
      intro same
      rw [same] at typed
      exact typed isNew.unused
    rw [kept, pair.nodes, update_of_ne notNew]
    by_cases atDp : (store.icache other).inum = (store.icache dp).inum
    · rw [atDp, update_self, isDir]
    · rw [update_of_ne atDp]
  · intro isShaped
    exact passes.nodes.tree (tree isShaped)
  · exact (Followed.of_eq pair.lookups).trans passes.followed
  · rw [passes.inOp, pair.inOp, inOp]
  · intro found isFound
    cases isFound
    rw [nodeIp, isIp]
    exact isType
  · intro found isFound notDir
    cases isFound
    rw [nodeIp, isIp]
    exact notDir

theorem Walking.createNew_wp (walking : Walking live base store dp) (isType : type ≠ 0)
    (isDir : (store.nodes (store.icache dp).inum).type = T_DIR)
    (absent : ∀ entry ∈ (store.nodes (store.icache dp).inum).entries, entry.inum ≠ 0 →
      entry.name ≠ name) (short : name.length ≤ DIRSIZ) (nonzero : 0 ∉ name)
    (shape : shaped → live ∧ Shaped store) :
    Wp (createNew dp name type major minor) (store.locking dp)
      (Created live shaped base store type) (Stops live shaped store) := by
  have typed := ne_zero_of_isDir isDir
  have stopped : ∀ stop after, Exhausted stop → after.lookups = store.lookups →
      Stops live shaped store stop after := fun stop after exhausted lookups =>
    Stops.exhausted exhausted (Followed.of_eq lookups)
  rw [createNew]
  apply walking.ialloc_wp isType typed _ stopped
  intro ip after new isNew pair
  refine assign_wp pair.consistent pair.heldIp pair.lockedIp pair.inOp
    (by exact fun _ => rfl) (by exact fun _ => rfl) (by exact fun _ => rfl) ?_
  intro counted altered
  rw [pair.nodeIp] at altered
  have linked := pair.alterIp altered
  dsimp only at linked
  rw [wp_bind]
  refine (linked.dots_wp isNew).mono ?_ fun stop after stops => stopped stop after stops.1 stops.2
  intro _ dotted pair
  simp only [wp_bind, wp_get]
  have node := pair.nodeDp
  have small : new < 2 ^ 16 := Nat.lt_of_lt_of_le isNew.inRange (by
    rw [← pair.sb]
    exact pair.consistent.whole.layout.numbers)
  rw [pair.inumIp]
  refine (dirlink_absent_wp pair.consistent pair.heldDp pair.lockedDp pair.inOp ?_
    ⟨small, short, nonzero⟩ ?_ ?_).mono ?_ ?_
  · rw [node]
    exact isDir
  · rw [pair.sb]
    exact isNew.inRange
  · rw [node]
    exact absent
  · rintro result named ⟨isZero, position, _, empty, altered⟩
    rw [isZero, if_neg (by decide)]
    rw [node] at empty altered
    have final := pair.alterDp altered
    apply final.created_wp isNew isType rfl rfl _ walking.inOp
    intro isShaped
    rcases shape isShaped with ⟨isLive, isTree⟩
    rcases final.added isNew isType isTree ((walking.linked isLive).live isDir) absent empty with
      ⟨index, added⟩
    exact added.tree isTree.1
  · rintro stop named ⟨exhausted, lookups⟩
    exact stopped stop named exhausted (lookups.trans pair.lookups)

/-- A walk ends at an inode that it keeps locked. -/
theorem Walking.locked (walking : Walking live base store ip)
    (typed : (store.nodes (store.icache ip).inum).type ≠ 0)
    (shape : shaped → Shaped store) :
    Ends live shaped base store (store.locking ip) (base + Pi.single ip 1)
      fun other => decide (some ip = some other) := by
  apply Ends.of_passes (Passes.locking store ip) (walking.locking typed).1
  · rw [refs_locking, walking.refs]
  · funext other
    rw [locks_locking, walking.unlocked]
    by_cases same : other = ip
    · subst same
      rw [update_self]
      exact (decide_eq_true rfl).symm
    · rw [update_of_ne same]
      exact (decide_eq_false fun isIp => same (Option.some.inj isIp).symm).symm
  · exact fun isShaped => (shape isShaped).1

section

variable (walked : Walked live base parent store none after) (shape : shaped → Shaped store)
include walked shape

theorem Walked.ends : Ends live shaped base store after := by
  apply Ends.of_passes walked.passes walked.consistent _ walked.unlocked
  · exact fun isShaped => (shape isShaped).1
  · rw [walked.refs, Option.elim_none, add_zero]

theorem Walked.created : Created live shaped base store type none after := by
  have ends : Ends live shaped base store after := walked.ends shape
  refine ⟨?_, walked.passes.inOp, ?_, ?_⟩
  · simpa using ends
  · intro ip impossible
    cases impossible
  · intro ip impossible
    cases impossible

end

theorem Walking.createFound_wp (walking : Walking live base store dp)
    (isDir : (store.nodes (store.icache dp).inum).type = T_DIR)
    (isEntry : (store.nodes (store.icache dp).inum).entries[position]? = some ⟨inum, name⟩)
    (nonzero : inum ≠ 0)
    (got : Got ((store.locking dp).noted (store.icache dp).inum ⟨inum, name⟩) middle ip inum)
    (shape : shaped → Shaped store) :
    Wp (createFound dp ip type) middle (Created live shaped base store type)
      (Stops live shaped store) := by
  rw [createFound]
  refine (walking.next_wp isDir isEntry nonzero got).seq ?_
  rintro _ next ⟨further, passes, _⟩
  have shapeNext : shaped → Shaped next := fun isShaped => passes.shape (shape isShaped)
  rw [wp_bind]
  refine (further.ilock_wp).mono ?_ fun stop after stops => stops.later passes.followed
  rintro _ after ⟨isAfter, typed⟩
  subst isAfter
  have isType : ((next.locking ip).icache ip).dinode.type =
      (next.nodes (next.icache ip).inum).type := by
    rw [Store.locking, icache_withInode_self]
    rfl
  have inum : ((next.locking ip).icache ip).inum = (next.icache ip).inum := inum_locking ip
  simp only [wp_bind, wp_get, isType]
  split
  · rename_i isFile
    rw [wp_pure]
    refine ⟨(further.locked typed shapeNext).later passes, passes.inOp, ?_, ?_⟩
    · intro found isFound
      cases isFound
      rw [inum]
      exact typed
    · intro found isFound _
      cases isFound
      rw [inum]
      rcases isFile.2 with file | device
      · exact fun isDir => absurd (file.symm.trans isDir) (by decide)
      · exact fun isDir => absurd (device.symm.trans isDir) (by decide)
  · rw [wp_bind]
    refine (further.fails_wp false typed).imp ?_
    intro _ after walked
    rw [wp_pure]
    exact (walked.created shapeNext).later passes

theorem Walked.walking {found : Index × Name}
    (walked : Walked live base parent store (some found) after) (inOp : store.inOp = true)
    (nonneg : ∀ other, 0 ≤ base other) (closed : live → Closed store.nodes) :
    Walking live base after found.1 :=
  ⟨walked.consistent, walked.unlocked, walked.passes.inOp.trans inOp, walked.refs, nonneg,
    fun isLive => walked.passes.nodes.closed (closed isLive), walked.linked found rfl⟩

theorem create_wp {cwd : Index} {path : Path}
    (ready : Ready live store cwd) (rooted : live → Rooted store cwd path) (nonzero : 0 ∉ path)
    (isType : type ≠ 0) (shape : shaped → live ∧ Shaped store) :
    Wp (create cwd path type major minor) store (Created live shaped store.refs store type)
      (Stops live shaped store) := by
  rw [create]
  refine (nameiparent_wp ready rooted nonzero).seq ?_
  intro result after walked
  cases result with
  | none =>
    simp only [wp_pure]
    exact walked.created fun isShaped => (shape isShaped).2
  | some found =>
    rcases found with ⟨dp, name⟩
    have walking := walked.walking ready.inOp ready.consistent.refs_nonneg ready.closed
    rcases walked.name _ rfl rfl with ⟨isDir, short, nonzeroName⟩
    have shapeAfter : shaped → live ∧ Shaped after := fun isShaped =>
      ⟨(shape isShaped).1, walked.passes.shape (shape isShaped).2⟩
    dsimp only at walking isDir short nonzeroName ⊢
    rw [wp_bind]
    refine walking.ilock_wp.mono ?_ fun stop final stops => stops.later walked.passes.followed
    rintro _ locked ⟨isLocked, typed⟩
    subst isLocked
    rw [wp_bind]
    refine (walking.dirlookup_wp name isDir).mono ?_ fun stop final stops =>
      stops.later walked.passes.followed
    rintro result middle ⟨lookedUp, _⟩
    cases lookedUp with
    | missing absent =>
      rw [inum_locking] at absent
      refine (walking.createNew_wp isType isDir absent short nonzeroName shapeAfter).mono ?_ ?_
      · intro result final created
        exact created.later walked.passes
      · intro stop final stops
        exact stops.later walked.passes.followed
    | found position inum isEntry isNonzero got =>
      rw [inum_locking] at isEntry got
      refine (walking.createFound_wp isDir isEntry isNonzero got
        fun isShaped => (shapeAfter isShaped).2).mono ?_ ?_
      · intro result final created
        exact created.later walked.passes
      · intro stop final stops
        exact stops.later walked.passes.followed

end

end Fs
end Xv6
