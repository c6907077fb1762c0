import Xv6.Fs.Unlink

namespace Xv6
namespace Fs

open Foundation Function Store
open Buffer (Block Stop)

/-!
# Transactions

The parts of the system calls that work on the store, each from its `begin_op`
to its `end_op`.  All of them end with the references they are meant to leave
and without locks.  The calls that only read, `read` and `fstat`, have no
transaction; in a store without holes they do not need one.
-/

/-! ## Reading -/

section

variable {store : Store} {ip : Index}

theorem Store.type_locking :
    ((store.locking ip).icache ip).dinode.type = (store.nodes (store.icache ip).inum).type := by
  rw [Store.locking, icache_withInode_self]
  rfl

theorem Consistent.readi_wp (consistent : Consistent store) (held : 0 < store.refs ip)
    (locked : store.locks ip = true) (dst : Destination) {off n : Nat} (offFits : off < 2 ^ 32)
    (nFits : n < 2 ^ 32) :
    Wp (readi ip dst off n) store fun _ after => after = store := by
  have valid := (consistent.agrees ip).valid locked
  have coherent := (consistent.agrees ip).coherent held valid
  have typed := (consistent.agrees ip).typed held valid
  have view : store.view ip = store.volume := view_eq_volume coherent
  rw [coherent] at typed
  refine (Fs.readi_wp ?_ ?_ dst offFits nFits).imp fun _ _ reads => reads.1
  · rw [view]
    exact consistent.whole.owned
  · rw [view]
    exact consistent.whole.holeFree _ typed

end

/-! ## Calls in one transaction -/

variable {α : Type} {stops : Stop → Store → Prop} {path : Option Path} {reads : List (Nat × Nat)}

section

variable {live shaped : Prop} {base refs : Index → Int} {locks : Index → Bool}
  {store before middle after : Store} {cwd ip : Index}

theorem Ends.passes {refsAfter : Index → Int} {locksAfter : Index → Bool}
    (ends : Ends live shaped base before middle refs locks)
    (passes : Passes live base middle after) (consistent : Consistent after)
    (isRefs : after.refs = refsAfter) (isLocks : after.locks = locksAfter) :
    Ends live shaped base before after refsAfter locksAfter := by
  refine ⟨consistent, isRefs, isLocks, passes.sb.trans ends.sb, ?_, ?_, ?_, ?_⟩
  · intro other positive
    rw [passes.inum other positive, ends.inum other positive]
  · intro other positive typed
    have kept := passes.kept other positive
    rw [ends.inum other positive] at kept
    rw [kept, ends.type other positive typed]
  · intro isShaped
    exact passes.nodes.tree (ends.tree isShaped)
  · exact ends.followed.trans passes.followed

theorem Ends.release_wp {value : α}
    (ends : Ends live shaped base before after (base + Pi.single ip 1)
      fun other => decide (some ip = some other))
    (nonneg : ∀ other, 0 ≤ base other) (inOp : after.inOp = true) :
    Wp (do
      iunlockput ip
      endOp
      return value) after
      (fun _ final => Ends live shaped base before final) stops := by
  have locked : after.locks ip = true := by
    rw [ends.locks]
    exact decide_eq_true rfl
  rw [wp_bind]
  refine (iunlockput_left live ends.consistent ends.refs (nonneg ip) locked inOp).total ?_
  intro _ last left
  apply Ends.endOp_wp
  apply ends.passes left.passes left.consistent left.refs
  funext other
  rw [left.locks, ends.locks]
  by_cases same : other = ip
  · rw [same, update_self]
  · rw [update_of_ne same]
    exact decide_eq_false fun isIp => same (Option.some.inj isIp).symm

theorem Starts.makeNode_wp (starts : Starts live store cwd)
    {type major minor : BitVec 16} (isType : type ≠ 0) (nonzero : ∀ path' ∈ path, 0 ∉ path')
    (rooted : live → ∀ path' ∈ path, Rooted store cwd path') :
    Wp (makeNode cwd path type major minor) store
      (fun _ final => Ends live live store.refs store final)
      (Stops live live store) := by
  have nonneg := starts.consistent.toIntact.refs_nonneg
  unfold makeNode
  rw [wp_bind, wp_beginOp]
  cases path with
  | none =>
    apply Ends.endOp_wp
    exact ⟨starts.consistent.unread, rfl, starts.unlocked, rfl, fun _ _ => rfl, fun _ _ _ => rfl,
      fun isLive => (starts.shape isLive).1, Followed.of_eq rfl⟩
  | some path =>
    dsimp only
    rw [wp_bind]
    refine (create_wp starts.ready (fun isLive => rooted isLive path rfl) (nonzero path rfl)
      isType fun isLive => ⟨isLive, starts.shape isLive⟩).mono ?_ fun _ _ stops => stops.begun
    intro result made created
    have ends := created.ends.begun
    cases result with
    | none =>
      rw [Option.elim_none, add_zero] at ends
      apply Ends.endOp_wp
      exact ends
    | some ip => exact ends.release_wp nonneg created.inOp

/-- `fileclose` of the last reference to a file on an inode, and the end of
`exit`. -/
theorem Starts.closeInode_wp (starts : Starts live store ip)
    (refs : store.refs = base + Pi.single ip 1) (nonneg : ∀ other, 0 ≤ base other) :
    Wp (closeInode ip) store fun _ final => Ends live live base store final := by
  have unlocked : store.locks ip = false := by
    rw [starts.unlocked]
  have start : Consistent { store with inOp := true } := starts.consistent.unread
  rw [closeInode, wp_bind, wp_beginOp]
  refine (iput_left live start refs (nonneg ip) unlocked rfl).seq ?_
  intro _ after left
  have ends : Ends live live base { store with inOp := true } after := by
    apply Ends.of_passes left.passes left.consistent left.refs _ fun isLive =>
      (starts.shape isLive).1
    rw [left.locks]
    exact starts.unlocked
  rw [wp_endOp]
  exact ends.begun.committed

/-- What `sys_chdir` leaves: another working directory, or the same one. -/
def Moved (live : Prop) (base : Index → Int) (before : Store) (result : Option Index)
    (after : Store) : Prop :=
  match result with
  | none => Ends live live before.refs before after
  | some new => Ends live live base before after (base + Pi.single new 1) ∧
      (after.nodes (after.icache new).inum).type = T_DIR

theorem Walking.chdir_wp {rest : Index → Int} (walking : Walking live rest store ip)
    (isRest : rest = base + Pi.single cwd 1) (nonneg : ∀ other, 0 ≤ base other)
    (isDir : (store.nodes (store.icache ip).inum).type = T_DIR) (shape : live → Shaped store) :
    Wp (do
      iunlock ip
      iput cwd
      endOp
      return some ip) (store.locking ip)
      fun result final => result = some ip ∧
        Ends live live base store final (base + Pi.single ip 1) ∧
        (final.nodes (final.icache ip).inum).type = T_DIR := by
  have typed := ne_zero_of_isDir isDir
  rcases walking.locking typed with ⟨consistent, isLocked, held⟩
  have refs : ((store.locking ip).unlocking ip).refs =
      (base + Pi.single ip 1) + Pi.single cwd 1 := by
    rw [refs_unlocking, refs_locking, walking.refs, isRest]
    abel
  have unlocked : ((store.locking ip).unlocking ip).locks cwd = false := by
    rw [walking.unlocked_again]
  have nonnegBoth := add_single_nonneg nonneg ip
  have positive := add_single_pos nonneg ip
  refine (iunlock_wp held isLocked).seq ?_
  intro _ middle isMiddle
  subst isMiddle
  refine (iput_left live (consistent.unlocking held) refs (nonnegBoth cwd) unlocked
    walking.inOp).seq ?_
  intro _ last left
  have inum : (((store.locking ip).unlocking ip).icache ip).inum = (store.icache ip).inum := by
    rw [inum_unlocking, inum_locking]
  have kept := left.passes.kept ip positive
  have nodes : ((store.locking ip).unlocking ip).nodes = store.nodes := rfl
  rw [inum, nodes] at kept
  have passes : Passes live base store last := by
    apply (Passes.locking store ip).trans
    apply (Passes.unlocking _ ip).trans
    apply left.passes.mono
    intro other isPositive
    exact add_single_pos_of_pos ip isPositive
  rw [wp_bind, wp_endOp, wp_pure]
  refine ⟨rfl, Ends.committed ?_, ?_⟩
  · apply Ends.of_passes passes left.consistent left.refs _ fun isLive => (shape isLive).1
    rw [left.locks, walking.unlocked_again]
  · show (last.nodes (last.icache ip).inum).type = T_DIR
    rw [left.passes.inum ip positive, inum, kept, isDir]

theorem Starts.ilock_wp {middle : Store} {name : Name} {rest : Kernel α}
    {post : α → Store → Prop} (starts : Starts live store cwd)
    (walked : Walked live store.refs false { store with inOp := true } (some (ip, name)) middle)
    (goes : Walking live store.refs middle ip → (middle.nodes (middle.icache ip).inum).type ≠ 0 →
      Wp rest (middle.locking ip) post (Stops live live store)) :
    Wp (do ilock ip; rest) middle post (Stops live live store) := by
  have walking := walked.walking rfl starts.consistent.toIntact.refs_nonneg starts.ready.closed
  rw [wp_bind]
  refine walking.ilock_wp.mono ?_ fun _ _ stops => (stops.later walked.passes.followed).begun
  rintro _ locked ⟨isLocked, typed⟩
  subst isLocked
  exact goes walking typed

theorem Starts.sysChdir_wp (starts : Starts live store cwd)
    (refs : store.refs = base + Pi.single cwd 1) (nonneg : ∀ other, 0 ≤ base other)
    (nonzero : ∀ path' ∈ path, 0 ∉ path') (rooted : live → ∀ path' ∈ path, Rooted store cwd path') :
    Wp (sysChdir cwd path) store (Moved live base store) (Stops live live store) := by
  unfold sysChdir
  rw [wp_bind, wp_beginOp]
  cases path with
  | none =>
    rw [wp_bind, wp_endOp, wp_pure]
    exact starts.unchanged.committed
  | some path =>
    dsimp only
    rw [wp_bind]
    refine (namei_wp starts.ready (fun isLive => rooted isLive path rfl)
      (nonzero path rfl)).mono ?_ fun _ _ stops => stops.begun
    rintro result middle ⟨name, walked⟩
    have shape : live → Shaped middle := fun isLive =>
      walked.passes.shape (starts.shape isLive)
    cases result with
    | none =>
      rw [wp_bind, wp_endOp, wp_pure]
      exact (walked.ends starts.shape).begun.committed
    | some ip =>
      dsimp only
      refine starts.ilock_wp walked fun walking typed => ?_
      rw [wp_bind, wp_get, wp_ite, type_locking]
      by_cases isDir : (middle.nodes (middle.icache ip).inum).type = T_DIR
      · rw [if_neg (not_not.mpr isDir)]
        refine (walking.chdir_wp refs nonneg isDir shape).total ?_
        rintro result final ⟨isResult, ends, type⟩
        subst isResult
        have early := walked.passes.mono fun other positive => by
          show 0 < store.refs other
          rw [refs]
          exact add_single_pos_of_pos cwd positive
        exact ⟨(Ends.later early ends).begun, type⟩
      · rw [if_pos isDir, wp_bind]
        refine (walking.fails_wp false typed).imp ?_
        intro _ last failed
        rw [wp_bind, wp_endOp, wp_pure]
        exact (Ends.later walked.passes (failed.ends shape)).begun.committed

theorem execReads_wp (consistent : Consistent store)
    (held : 0 < store.refs ip) (locked : store.locks ip = true)
    (fits : ∀ read ∈ reads, read.1 < 2 ^ 32 ∧ read.2 < 2 ^ 32) :
    Wp (execReads ip reads) store fun _ after => after = store := by
  induction reads with
  | nil =>
    rw [execReads, wp_pure]
  | cons read rest ih =>
    have bounds := fits read List.mem_cons_self
    rw [execReads, wp_bind, wp_discard]
    refine (consistent.readi_wp held locked .kernel bounds.1 bounds.2).imp ?_
    intro _ same isSame
    rw [isSame]
    exact ih fun other member => fits other (List.mem_cons_of_mem read member)

theorem Starts.sysExec_wp (starts : Starts live store cwd) (nonzero : ∀ path' ∈ path, 0 ∉ path')
    (fits : ∀ read ∈ reads, read.1 < 2 ^ 32 ∧ read.2 < 2 ^ 32)
    (rooted : live → ∀ path' ∈ path, Rooted store cwd path') :
    Wp (sysExec cwd path reads) store (fun _ final => Ends live live store.refs store final)
      (Stops live live store) := by
  unfold sysExec
  cases path with
  | none =>
    rw [wp_pure]
    exact starts.unchanged
  | some path =>
    dsimp only
    rw [wp_bind, wp_beginOp, wp_bind]
    refine (namei_wp starts.ready (fun isLive => rooted isLive path rfl)
      (nonzero path rfl)).mono ?_ fun _ _ stops => stops.begun
    rintro result middle ⟨name, walked⟩
    have shape : live → Shaped middle := fun isLive =>
      walked.passes.shape (starts.shape isLive)
    cases result with
    | none =>
      rw [wp_endOp]
      exact (walked.ends starts.shape).begun.committed
    | some ip =>
      dsimp only
      refine starts.ilock_wp walked fun walking typed => ?_
      rcases walking.locking typed with ⟨consistent, isLocked, held⟩
      rw [wp_bind]
      refine (execReads_wp consistent held isLocked fits).total ?_
      intro _ same isSame
      subst isSame
      rw [wp_bind]
      refine (walking.fails_wp false typed).imp ?_
      intro _ last failed
      rw [wp_endOp]
      exact (Ends.later walked.passes (failed.ends shape)).begun.committed

end

/-! ## Opening -/

variable {omode : Nat}

section

variable {live : Prop} {store after : Store} {cwd ip : Index}

/-- The contents of a file were changed, and no node. -/
theorem Altered.left (altered : Altered store after ip (store.nodes (store.icache ip).inum)) :
    Left live store.refs store after store.locks := by
  have edited := altered.edited
  refine ⟨altered.consistent, edited.refs, edited.locks, ?_⟩
  apply Passes.of_same edited.sb edited.inOp edited.lookups edited.inum_eq
  rw [altered.nodes, update_eq_self]

/-- What the first part of `sys_open` returns: a locked inode, which is a
directory only if it is opened for reading. -/
structure Opened (live : Prop) (before : Store) (omode : Nat) (result : Option Index)
    (after : Store) : Prop where
  ends : Ends live live before.refs before after
    (before.refs + result.elim 0 fun ip => Pi.single ip 1) fun other => decide (result = some other)
  inOp : after.inOp = true
  typed : ∀ ip ∈ result, (after.nodes (after.icache ip).inum).type ≠ 0
  kind : ∀ ip ∈ result, omode ≠ O_RDONLY → (after.nodes (after.icache ip).inum).type ≠ T_DIR

theorem Starts.opened {parent : Bool} (starts : Starts live store cwd)
    (walked : Walked live store.refs parent { store with inOp := true } none after) :
    Opened live store omode none after := by
  have ends : Ends live live store.refs store after :=
    (walked.ends starts.shape).begun
  refine ⟨?_, walked.passes.inOp, ?_, ?_⟩
  · simpa using ends
  · intro ip impossible
    cases impossible
  · intro ip impossible
    cases impossible

theorem Starts.openInode_wp (starts : Starts live store cwd) {path : Path}
    (nonzero : 0 ∉ path) (rooted : live → Rooted store cwd path) :
    Wp (openInode cwd path omode) { store with inOp := true } (Opened live store omode)
      (Stops live live store) := by
  rw [openInode, wp_ite]
  by_cases creates : omode &&& O_CREATE ≠ 0
  · rw [if_pos creates]
    refine (create_wp starts.ready rooted nonzero (by decide) fun isLive =>
      ⟨isLive, starts.shape isLive⟩).mono ?_ fun _ _ stops => stops.begun
    intro result made created
    exact ⟨created.ends.begun, created.inOp, created.typed,
      fun ip isIp _ => created.kind ip isIp (by decide)⟩
  · rw [if_neg creates, wp_bind]
    refine (namei_wp starts.ready rooted nonzero).mono ?_ fun _ _ stops => stops.begun
    rintro result middle ⟨name, walked⟩
    have shape : live → Shaped middle := fun isLive =>
      walked.passes.shape (starts.shape isLive)
    cases result with
    | none =>
      rw [wp_pure]
      exact starts.opened walked
    | some ip =>
      dsimp only
      refine starts.ilock_wp walked fun walking typed => ?_
      rw [wp_bind, wp_get, wp_ite, type_locking]
      by_cases refused : (middle.nodes (middle.icache ip).inum).type = T_DIR ∧ omode ≠ O_RDONLY
      · rw [if_pos refused, wp_bind]
        refine (walking.fails_wp false typed).imp ?_
        intro _ last failed
        rw [wp_pure]
        exact starts.opened (failed.later walked.passes)
      · rw [if_neg refused, wp_pure]
        have inum : ((middle.locking ip).icache ip).inum = (middle.icache ip).inum :=
          inum_locking ip
        refine ⟨(Ends.later walked.passes (walking.locked typed shape)).begun, walking.inOp, ?_, ?_⟩
        · intro found isFound
          cases isFound
          rw [inum]
          exact typed
        · intro found isFound writes
          cases isFound
          rw [inum]
          exact fun isDir => refused ⟨isDir, writes⟩

variable (opened : Opened live store omode (some ip) after) (intact : Intact store)
include opened intact

theorem Opened.openBad_wp :
    Wp (openBad ip) after (fun _ final => Ends live live store.refs store final) stops :=
  opened.ends.release_wp intact.refs_nonneg opened.inOp

theorem Opened.openTruncate_wp :
    Wp (openTruncate ip omode) after
      fun _ final =>
        Ends live live store.refs store final (store.refs + Pi.single ip 1) ∧
        (final.nodes (final.icache ip).inum).type = (after.nodes (after.icache ip).inum).type := by
  have consistent := opened.ends.consistent
  have held : 0 < after.refs ip := by
    rw [opened.ends.refs]
    exact add_single_pos intact.refs_nonneg ip
  have locked : after.locks ip = true := by
    rw [opened.ends.locks]
    exact decide_eq_true rfl
  have ending : ∀ next, Left live after.refs after next after.locks →
      Wp (do
        iunlock ip
        endOp) next
        fun _ final =>
          Ends live live store.refs store final (store.refs + Pi.single ip 1) ∧
          (final.nodes (final.icache ip).inum).type = (after.nodes (after.icache ip).inum).type := by
    intro next left
    have heldNext : 0 < next.refs ip := by
      rw [left.refs]
      exact held
    have lockedNext : next.locks ip = true := by
      rw [left.locks]
      exact locked
    have passes := left.passes.trans (Passes.unlocking next ip)
    have fewer : Passes live store.refs after (next.unlocking ip) := by
      apply passes.mono
      intro other positive
      rw [opened.ends.refs]
      exact add_single_pos_of_pos ip positive
    refine (iunlock_wp heldNext lockedNext).seq ?_
    intro _ final isFinal
    subst isFinal
    rw [wp_endOp]
    constructor
    · apply Ends.committed
      apply opened.ends.passes fewer (left.consistent.unlocking heldNext)
      · rw [refs_unlocking, left.refs, opened.ends.refs]
        rfl
      · rw [locks_unlocking, left.locks, opened.ends.locks]
        funext other
        by_cases same : other = ip
        · rw [same, update_self]
        · rw [update_of_ne same]
          exact decide_eq_false fun isIp => same (Option.some.inj isIp).symm
    · show ((next.unlocking ip).nodes ((next.unlocking ip).icache ip).inum).type = _
      rw [passes.inum ip held, passes.kept ip held]
  rw [openTruncate, wp_bind, wp_get]
  dsimp only
  by_cases truncated : omode &&& O_TRUNC ≠ 0 ∧ (after.icache ip).dinode.type = T_FILE
  · have isFile : (after.nodes (after.icache ip).inum).type ≠ T_DIR := by
      rw [(consistent.toIntact.nodes_eq held locked).1, truncated.2]
      decide
    rw [if_pos truncated]
    refine (itrunc_wp (consistent.editing held locked opened.inOp).1).seq ?_
    intro _ next isTruncated
    exact ending next (isTruncated.file consistent held locked isFile).left
  · rw [if_neg truncated]
    exact ending after ⟨consistent, rfl, rfl, Passes.refl after⟩

end

/-! ## Reading and writing an open file -/

section

variable {live : Prop} {store after : Store} {ip : Index}

theorem Consistent.relocked (consistent : Consistent store) (held : 0 < store.refs ip)
    (unlocked : store.locks = fun _ => false)
    (typed : (store.nodes (store.icache ip).inum).type ≠ 0) :
    Left live store.refs store ((store.locking ip).unlocking ip) fun _ => false := by
  refine ⟨(consistent.locking held typed).unlocking (refs_locking_pos held), ?_, ?_, ?_⟩
  · rw [refs_unlocking, refs_locking]
  · rw [locks_unlocking, locks_locking, update_idem, unlocked, update_eq_self_iff]
  · exact (Passes.locking store ip).trans (Passes.unlocking _ ip)

theorem Consistent.writei_wp (live : Prop) (consistent : Consistent store) (held : 0 < store.refs ip)
    (locked : store.locks ip = true) (inOp : store.inOp = true)
    (isFile : (store.nodes (store.icache ip).inum).type ≠ T_DIR) (src : Source) {off n : Nat}
    (offFits : off < 2 ^ 32) (nFits : n < 2 ^ 32) :
    Wp (writei ip src off n) store
      (fun result after => (result = -1 ∨ result = n) ∧
        Left live store.refs store after store.locks)
      fun stop after => Exhausted stop ∧ after.lookups = store.lookups := by
  rcases consistent.editing held locked inOp with ⟨editing, view, holeFree⟩
  have kind : (store.icache ip).dinode.type ≠ T_DIR := by
    rw [← (consistent.toIntact.nodes_eq held locked).1]
    exact isFile
  refine (Fs.writei_wp editing view holeFree (Or.inr kind) offFits nFits).mono ?_ ?_
  · rintro result after ⟨refused, accepted⟩
    by_cases unwritable : Unwritable (store.icache ip).dinode.size.toNat off n
    · rcases refused unwritable with ⟨isResult, same⟩
      subst same
      exact ⟨Or.inl isResult, consistent, rfl, rfl, Passes.refl after⟩
    · rcases accepted unwritable with ⟨isResult, written⟩
      exact ⟨Or.inr isResult, (written.file consistent held locked isFile).left⟩
  · rintro stop after ⟨_, isStop, _, lookups⟩
    exact ⟨Or.inl isStop, lookups⟩

theorem Consistent.idup_wp (consistent : Consistent store) (held : 0 < store.refs ip) :
    Wp (idup ip) store
      fun _ after => Left live (store.refs + Pi.single ip 1) store after store.locks := by
  have counted : 0 < (store.icache ip).ref + 1 := Int.lt_add_one_of_le (Int.le_of_lt held)
  have entry := consistent.agrees ip
  rw [idup, wp_setInode]
  refine ⟨consistent.withFlags held counted entry.valid, ?_, ?_, ?_⟩
  · funext other
    rw [refs_withInode, Pi.add_apply]
    by_cases same : other = ip
    · subst same
      rw [update_self, Pi.single_eq_same]
      rfl
    · rw [update_of_ne same, Pi.single_eq_of_ne same, add_zero]
  · rw [locks_withInode, update_eq_self_iff]
    rfl
  · refine Passes.of_same rfl rfl rfl ?_ rfl
    intro other
    by_cases same : other = ip
    · subst same
      rw [icache_withInode_self]
    · rw [icache_withInode_of_ne same]

end

/-! ## Evicting buffers -/

section

variable {store : Store} {blockno : Nat} {block : Block}

theorem evict_of_logged (logged : store.stale blockno = none) : evict store blockno = store := by
  rw [evict, logged, Option.getD_none, update_eq_self, ← logged, update_eq_self]

section

variable (whole : Whole store) (isStale : store.stale blockno = some block)
include whole isStale

theorem Whole.volume_evict :
    (evict store blockno).volume = store.volume.written blockno fun _ => block := by
  have inPool := (whole.stale blockno (by rw [isStale]; exact Option.some_ne_none _)).1
  have modified := store.volume_modified_data whole.layout inPool.1 inPool.2 fun _ => block
  have same : (evict store blockno).volume = (store.modified blockno fun _ => block).volume := by
    rw [evict, isStale]
    rfl
  exact same.trans modified

theorem Whole.byte_evict
    {inum : Nat} (isDir : (store.volume.dinodes inum).type = T_DIR) (position : Nat) :
    (evict store blockno).volume.byte inum position = store.volume.byte inum position := by
  have inFile := (whole.stale blockno (by rw [isStale]; exact Option.some_ne_none _)).2
  have addresses : ∀ other, store.volume.indirect other ≠ blockno := fun other holds =>
    (inFile (other, none) holds).2 rfl
  have elsewhere : store.volume.address inum (position / BSIZE) ≠ blockno := fun holds =>
    (inFile (inum, some (position / BSIZE)) holds).1 isDir
  have same : (store.volume.written blockno fun _ => block).address inum (position / BSIZE) =
      store.volume.address inum (position / BSIZE) :=
    congrFun (Volume.blockAt_written addresses fun _ => block) (inum, some (position / BSIZE))
  have data : (store.volume.written blockno fun _ => block).data
      (store.volume.address inum (position / BSIZE)) =
      store.volume.data (store.volume.address inum (position / BSIZE)) :=
    update_of_ne elsewhere _ _
  rw [whole.volume_evict isStale, Volume.byte, same, data, Volume.byte]

theorem Whole.nodes_evict : (evict store blockno).nodes = store.nodes := by
  have dinodes : (evict store blockno).volume.dinodes = store.volume.dinodes := by
    rw [whole.volume_evict isStale]
    rfl
  funext inum
  by_cases isDir : (store.volume.dinodes inum).type = T_DIR
  · exact Volume.node_congr (congrFun dinodes inum) (whole.byte_evict isStale isDir)
  · have isFile : ((evict store blockno).volume.dinodes inum).type ≠ T_DIR := by
      rw [dinodes]
      exact isDir
    show (evict store blockno).volume.node inum = store.volume.node inum
    rw [Volume.node_of_file isDir, Volume.node_of_file isFile, dinodes]

theorem Whole.evict : Whole (evict store blockno) := by
  have inFile := whole.stale blockno (by rw [isStale]; exact Option.some_ne_none _)
  have isVolume := whole.volume_evict isStale
  have dinodes : (Fs.evict store blockno).volume.dinodes = store.volume.dinodes := by
    rw [isVolume]
    rfl
  have blockAt : (Fs.evict store blockno).volume.blockAt = store.volume.blockAt := by
    rw [isVolume]
    exact Volume.blockAt_written (fun other holds => (inFile.2 (other, none) holds).2 rfl) _
  refine ⟨whole.layout, ?_, ?_, ?_, ?_, ?_⟩
  · have same := blockAt
    rw [isVolume] at same ⊢
    exact whole.owned.of_blockAt (pool_ne_zero inFile.1) same
  · intro inum typed
    rw [dinodes] at typed
    have holeFree := whole.holeFree inum typed
    refine ⟨?_, ?_⟩
    · rw [dinodes]
      exact holeFree.bounded
    · intro bn below
      rw [dinodes] at below
      have same : (Fs.evict store blockno).volume.address inum bn =
        store.volume.address inum bn := congrFun blockAt (inum, some bn)
      rw [same]
      exact holeFree.mapped bn below
  · intro b staleStill
    have wasStale : store.stale b ≠ none := by
      intro logged
      apply staleStill
      show update store.stale blockno none b = none
      by_cases same : b = blockno
      · rw [same, update_self]
      · rw [update_of_ne same, logged]
    rw [dinodes, blockAt]
    exact whole.stale b wasStale
  · rw [dinodes]
    exact whole.aligned
  · intro inum isDir
    rw [dinodes] at isDir
    have same : (Fs.evict store blockno).volume.entries inum = store.volume.entries inum :=
      Volume.entries_congr (by rw [dinodes]) (whole.byte_evict isStale isDir)
    rw [same]
    exact whole.numbered inum isDir

end

/-- Evicting a buffer changes no node. -/
theorem Consistent.evict {live : Prop} {base : Index → Int} (consistent : Consistent store)
    (blockno : Nat) :
    Consistent (evict store blockno) ∧ Passes live base store (Fs.evict store blockno) := by
  by_cases logged : store.stale blockno = none
  · rw [evict_of_logged logged]
    exact ⟨consistent, Passes.refl store⟩
  · rcases Option.ne_none_iff_exists'.mp logged with ⟨block, isStale⟩
    have dinodes : (Fs.evict store blockno).volume.dinodes = store.volume.dinodes := by
      rw [consistent.whole.volume_evict isStale]
      rfl
    refine ⟨⟨⟨consistent.whole.evict isStale, ?_, consistent.single⟩, ?_⟩, ?_⟩
    · intro ip
      have entry := consistent.agrees ip
      refine ⟨entry.counted, entry.unlocked, entry.inRange, ?_, entry.typed, entry.valid⟩
      rw [dinodes]
      exact entry.coherent
    · intro inum
      rw [Collected, dinodes]
      exact consistent.collected inum
    · exact Passes.of_same rfl rfl rfl (fun _ => rfl) (consistent.whole.nodes_evict isStale)

end

end Fs
end Xv6
