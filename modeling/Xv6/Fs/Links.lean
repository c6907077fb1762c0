import Xv6.Fs.Linking

namespace Xv6
namespace Fs

open Foundation Function Store
open Buffer (Block Stop)

/-!
# `sys_link` and `sys_unlink`

`sys_link` counts the new link before it looks for the directory, and takes the
count back if there is no such directory or the name exists.  `sys_unlink`
clears the entry first and the count last; for a directory it takes back the
link of its `".."` as well.
-/

/-! ## Transactions -/

variable {returns : PUnit → Store → Prop} {α : Type}

section

variable {live shaped : Prop} {base refs : Index → Int} {locks : Index → Bool}
variable {store before after : Store} {stops : Stop → Store → Prop}

theorem wp_beginOp : Wp beginOp store returns stops ↔ returns ⟨⟩ { store with inOp := true } := by
  rw [beginOp, wp_modify]

theorem wp_endOp :
    Wp endOp store returns stops ↔ returns ⟨⟩ { store with inOp := false, logged := [] } := by
  rw [endOp, wp_modify]

theorem Ends.begun (ends : Ends live shaped base { before with inOp := true } after refs locks) :
    Ends live shaped base before after refs locks :=
  ⟨ends.consistent, ends.refs, ends.locks, ends.sb, ends.inum, ends.type, ends.tree, ends.followed⟩

theorem Ends.committed (ends : Ends live shaped base before after refs locks) :
    Ends live shaped base before { after with inOp := false, logged := [] } refs locks :=
  ⟨ends.consistent.unread, ends.refs, ends.locks, ends.sb, ends.inum, ends.type, ends.tree,
    ends.followed⟩

theorem Stops.begun {stop : Stop}
    (stops : Stops live shaped { before with inOp := true } stop after) :
    Stops live shaped before stop after :=
  ⟨stops.reason, stops.followed⟩

theorem Ends.endOp_wp {value : α} (ends : Ends live shaped base before after refs locks) :
    Wp (do
      endOp
      return value) after
      (fun _ final => Ends live shaped base before final refs locks) stops := by
  rw [wp_bind, wp_endOp, wp_pure]
  exact ends.committed

end

/-! ## `sys_link` -/

/-- `sys_link` has counted a link to an inode that it has not made. -/
structure Counting (live : Prop) (base : Index → Int) (before after : Store) (ip : Index) :
    Prop where
  sb : after.sb = before.sb
  started : before.inOp = true
  inOp : after.inOp = before.inOp
  inum : ∀ other, 0 < (base + Pi.single ip 1 : Index → Int) other →
    (after.icache other).inum = (before.icache other).inum
  kept : ∀ other, 0 < base other →
    (before.icache other).inum ≠ (before.icache ip).inum →
      after.nodes (before.icache other).inum = before.nodes (before.icache other).inum
  self : after.nodes (before.icache ip).inum = { before.nodes (before.icache ip).inum with
    nlink := (before.nodes (before.icache ip).inum).nlink + 1 }
  nodes : Collects before.nodes
    (update after.nodes (before.icache ip).inum (before.nodes (before.icache ip).inum))
  followed : Followed live before after
  nonneg : ∀ other, 0 ≤ base other
  isFile : (before.nodes (before.icache ip).inum).type ≠ T_DIR
  typed : (before.nodes (before.icache ip).inum).type ≠ 0

variable {cwd dp : Index} {path : Path} {made after : Store}

namespace Counting

variable {live shaped : Prop} {base : Index → Int} {before next : Store} {ip : Index}
  (counting : Counting live base before after ip)
include counting

theorem inumIp : (after.icache ip).inum = (before.icache ip).inum :=
  counting.inum ip (add_single_pos counting.nonneg ip)

theorem later (passes : Passes live (base + Pi.single ip 1) after next) :
    Counting live base before next ip := by
  have keptIp := passes.kept ip (add_single_pos counting.nonneg ip)
  rw [counting.inumIp] at keptIp
  refine { counting with
    sb := passes.sb.trans counting.sb, inOp := passes.inOp.trans counting.inOp
    inum := ?_, kept := ?_, self := ?_, nodes := ?_
    followed := counting.followed.trans passes.followed }
  · intro other positive
    rw [passes.inum other positive, counting.inum other positive]
  · intro other positive different
    have kept := passes.kept other (add_single_pos_of_pos ip positive)
    rw [counting.inum other (add_single_pos_of_pos ip positive)] at kept
    rw [kept, counting.kept other positive different]
  · rw [keptIp, counting.self]
  · apply counting.nodes.trans
    intro inum
    by_cases isIp : inum = (before.icache ip).inum
    · subst isIp
      rw [update_self, update_self]
      exact Or.inl rfl
    · rw [update_of_ne isIp, update_of_ne isIp]
      exact passes.nodes inum

theorem linkBad_wp (start : Consistent after) (unlocked : after.locks = fun _ => false)
    (refsStart : after.refs = base + Pi.single ip 1)
    (tree : shaped → Tree before.sb.ninodes before.nodes) :
    Wp (linkBad ip) after (fun _ final => Ends live shaped base before final)
      (Stops live shaped before) := by
  have unlockedIp : after.locks ip = false := by
    rw [unlocked]
  have heldStart : 0 < after.refs ip := by
    rw [refsStart]
    exact add_single_pos counting.nonneg ip
  have typed : (after.nodes (after.icache ip).inum).type ≠ 0 := by
    rw [counting.inumIp, counting.self]
    exact counting.typed
  rw [linkBad, wp_bind]
  refine (ilock_wp start.toIntact heldStart unlockedIp).mono ?_ ?_
  · rintro _ locked ⟨isLocked, _⟩
    have consistent : Consistent locked := by
      rw [isLocked]
      exact start.locking heldStart typed
    have held : 0 < locked.refs ip := by
      rw [isLocked, refs_locking]
      exact heldStart
    have lockedIp : locked.locks ip = true := by
      rw [isLocked, locks_locking, update_self]
    have inOp : locked.inOp = true := by
      rw [isLocked]
      exact counting.inOp.trans counting.started
    have inum : ∀ other, (locked.icache other).inum = (after.icache other).inum := by
      rw [isLocked]
      exact inum_locking
    have nodes : locked.nodes = after.nodes := by
      rw [isLocked]
      rfl
    have lookups : locked.lookups = after.lookups := by
      rw [isLocked]
      rfl
    refine assign_wp consistent held lockedIp inOp
      (by exact fun _ => rfl) (by exact fun _ => rfl) (by exact fun _ => rfl) ?_
    intro second altered
    have nlink := (consistent.toIntact.nodes_eq held lockedIp).2
    have edited := altered.edited
    have restored : second.nodes = update after.nodes (before.icache ip).inum
        (before.nodes (before.icache ip).inum) := by
      rw [altered.nodes, inum, counting.inumIp, nodes]
      congr 1
      dsimp only
      rw [← nlink, nodes, inum, counting.inumIp, counting.self]
      refine Node.ext rfl ?_ rfl
      exact BitVec.add_sub_cancel _ _
    have passes : Passes live base before second := by
      refine ⟨?_, ?_, ?_, ?_, ?_, ?_⟩
      · rw [edited.sb, isLocked]
        exact counting.sb
      · rw [edited.inOp, isLocked]
        exact counting.inOp
      · intro other positive
        rw [edited.inum_eq, inum, counting.inum other (add_single_pos_of_pos ip positive)]
      · intro other positive
        rw [restored]
        by_cases isIp : (before.icache other).inum = (before.icache ip).inum
        · rw [isIp, update_self]
        · rw [update_of_ne isIp]
          exact counting.kept other positive isIp
      · rw [restored]
        exact counting.nodes
      · apply counting.followed.trans
        apply Followed.of_eq
        rw [edited.lookups, lookups]
    have refs : second.refs = base + Pi.single ip 1 := by
      rw [edited.refs, isLocked, refs_locking, refsStart]
    have lockedSecond : second.locks ip = true := by
      rw [edited.locks]
      exact lockedIp
    rw [wp_bind]
    refine (iunlockput_left live altered.consistent refs (counting.nonneg ip) lockedSecond
      (edited.inOp.trans inOp)).total ?_
    intro _ final left
    apply Ends.endOp_wp
    apply Ends.of_passes (passes.trans left.passes) left.consistent left.refs _ tree
    rw [left.locks, edited.locks, isLocked, locks_locking, update_idem, unlocked,
      update_eq_self_iff]
  · rintro stop final ⟨_, _, free⟩
    exact absurd free typed

/-- A link that is counted but not made keeps the table closed. -/
theorem closed (shaped : Shaped before) : Closed after.nodes := by
  have old := (counting.nodes.tree shaped.1).closed
  generalize isOld : update after.nodes (before.icache ip).inum
    (before.nodes (before.icache ip).inum) = nodes at old
  have self : nodes (before.icache ip).inum = before.nodes (before.icache ip).inum := by
    rw [← isOld, update_self]
  have others : ∀ inum, inum ≠ (before.icache ip).inum → after.nodes inum = nodes inum := by
    intro inum different
    rw [← isOld, update_of_ne different]
  have ne_of_dir : ∀ inum, (after.nodes inum).type = T_DIR → inum ≠ (before.icache ip).inum := by
    intro inum isDir same
    rw [same, counting.self] at isDir
    exact counting.isFile isDir
  have counted : (after.nodes (before.icache ip).inum).Linked := by
    rw [counting.self]
    refine ⟨counting.typed, ?_⟩
    intro zero
    have number := toNat_add_one (shaped.2 (before.icache ip).inum)
    dsimp only at zero
    rw [zero] at number
    cases number
  refine ⟨?_, ?_⟩
  · have notRoot : ROOTINO ≠ (before.icache ip).inum := by
      intro same
      apply counting.isFile
      rw [← self, ← same]
      exact old.root.1
    rw [others ROOTINO notRoot]
    exact old.root
  · intro dir live entry member nonzero
    have same := others dir (ne_of_dir dir live.1)
    rw [same] at live member
    by_cases isIp : entry.inum = (before.icache ip).inum
    · rw [isIp]
      exact counted
    · rw [others _ isIp]
      exact old.linked dir live entry member nonzero

theorem rooted (held : 0 < base cwd) (shaped : Shaped before) (rooted : Rooted before cwd path) :
    Rooted after cwd path := by
  rcases rooted with absolute | linked
  · exact Or.inl absolute
  · refine Or.inr ?_
    rw [counting.inum cwd (add_single_pos_of_pos ip held)]
    by_cases isIp : (before.icache cwd).inum = (before.icache ip).inum
    · rw [isIp, counting.self]
      refine ⟨counting.typed, ?_⟩
      intro zero
      have number := toNat_add_one (shaped.2 (before.icache ip).inum)
      dsimp only at zero
      rw [zero] at number
      cases number
    · rw [counting.kept cwd held isIp]
      exact linked

theorem tree_added (shaped : Shaped before)
    {dir position : Nat} {name : Name} {made : Nat → Node} (dirLive : (after.nodes dir).Live)
    (isMade : made = update after.nodes dir
      ((after.nodes dir).put position ⟨(before.icache ip).inum, name⟩))
    (absent : ∀ entry ∈ (after.nodes dir).entries, entry.inum ≠ 0 → entry.name ≠ name)
    (empty : ∀ old, (after.nodes dir).entries[position]? = some old → old.inum = 0) :
    Tree before.sb.ninodes made := by
  have old := counting.nodes.tree shaped.1
  generalize isOld : update after.nodes (before.icache ip).inum
    (before.nodes (before.icache ip).inum) = nodes at old
  have self : nodes (before.icache ip).inum = before.nodes (before.icache ip).inum := by
    rw [← isOld, update_self]
  have different : (before.icache ip).inum ≠ dir := by
    intro same
    rw [← same, counting.self] at dirLive
    exact counting.isFile dirLive.1
  have isDir : after.nodes dir = nodes dir := by
    rw [← isOld, update_of_ne different.symm]
  have madeIp : made (before.icache ip).inum = after.nodes (before.icache ip).inum := by
    rw [isMade, update_of_ne different]
  have madeDir : made dir = (nodes dir).put position ⟨(before.icache ip).inum, name⟩ := by
    rw [isMade, update_self, isDir]
  rw [isDir] at dirLive absent empty
  rcases old.behind dirLive absent empty with ⟨proper, index, isPosition, empty⟩
  have typed : (nodes (before.icache ip).inum).type ≠ 0 := by
    rw [self]
    exact counting.typed
  have isFile : (nodes (before.icache ip).inum).type ≠ T_DIR := by
    rw [self]
    exact counting.isFile
  have fileStill : (made (before.icache ip).inum).type ≠ T_DIR := by
    rw [madeIp, counting.self]
    exact counting.isFile
  have added : Added before.sb.ninodes nodes made dir (before.icache ip).inum index name := by
    refine ⟨dirLive, old.ne_zero typed, old.lt_of_typed typed, different, isFile, proper, ?_, ?_,
      ?_, ?_, ?_, ?_, ?_, empty⟩
    · rw [madeIp, counting.self]
      exact counting.typed
    · exact fun isDir => absurd isDir fileStill
    · rw [if_neg fileStill, madeIp, counting.self, ← self]
      exact old.files _ isFile
    · have links := old.links _ typed
      rw [old.subdirs_of_file isFile, Nat.add_zero, self] at links
      rw [madeIp, counting.self, ← links]
      exact toNat_add_one (shaped.2 _)
    · rw [madeDir, isPosition]
    · rw [madeDir, if_neg fileStill, Nat.add_zero]
      rfl
    · intro other notDir notIp
      rw [isMade, update_of_ne notDir, ← isOld, update_of_ne notIp]
  exact added.tree old

theorem linked_wp {node : Node} (refs : after.refs = base + Pi.single ip 1 + Pi.single dp 1)
    (unlocked : after.locks = fun _ => false) (altered : Altered (after.locking dp) made dp node)
    (sameType : node.type = (after.nodes (after.icache dp).inum).type)
    (tree : shaped → Tree before.sb.ninodes made.nodes) :
    Wp (do
      iunlockput dp
      iput ip
      endOp
      return (0 : Int)) made
      (fun _ final => Ends live shaped base before final)
      (Stops live shaped before) := by
  have edited := altered.edited
  have nonneg := add_single_nonneg counting.nonneg ip
  have refsMade : made.refs = base + Pi.single ip 1 + Pi.single dp 1 := by
    rw [edited.refs, refs_locking, refs]
  have lockedDp : made.locks dp = true := by
    rw [edited.locks, locks_locking, update_self]
  have inOp : made.inOp = true :=
    edited.inOp.trans (counting.inOp.trans counting.started)
  rw [wp_bind]
  refine (iunlockput_left live altered.consistent refsMade (nonneg dp) lockedDp inOp).total ?_
  intro _ third left
  have locksThird : third.locks = fun _ => false := by
    rw [left.locks, edited.locks, locks_locking, update_idem, unlocked, update_eq_self_iff]
  have unlockedIp : third.locks ip = false := by
    rw [locksThird]
  rw [wp_bind]
  refine (iput_left live left.consistent left.refs (counting.nonneg ip) unlockedIp
    (left.passes.inOp.trans inOp)).total ?_
  intro _ fourth last
  have passes : Passes live base made fourth :=
    (left.passes.mono fun other positive => add_single_pos_of_pos ip positive).trans last.passes
  apply Ends.endOp_wp
  refine ⟨last.consistent, last.refs, ?_, ?_, ?_, ?_, ?_, ?_⟩
  · rw [last.locks, locksThird]
  · rw [passes.sb, edited.sb]
    exact counting.sb
  · intro other positive
    rw [passes.inum other positive, edited.inum_eq, inum_locking,
      counting.inum other (add_single_pos_of_pos ip positive)]
  · intro other positive _
    have kept := passes.kept other positive
    rw [edited.inum_eq, inum_locking,
      counting.inum other (add_single_pos_of_pos ip positive)] at kept
    have start : (after.locking dp).nodes = after.nodes := rfl
    have types : (made.nodes (before.icache other).inum).type =
        (after.nodes (before.icache other).inum).type := by
      rw [altered.nodes, inum_locking, start]
      by_cases atDp : (before.icache other).inum = (after.icache dp).inum
      · rw [atDp, update_self, sameType]
      · rw [update_of_ne atDp]
    rw [kept, types]
    by_cases isIp : (before.icache other).inum = (before.icache ip).inum
    · rw [isIp, counting.self]
    · rw [counting.kept other positive isIp]
  · intro isShaped
    exact passes.nodes.tree (tree isShaped)
  · apply counting.followed.trans
    exact (Followed.of_eq edited.lookups).trans passes.followed

theorem present_wp (walking : Walking live (base + Pi.single ip 1) after dp)
    (tree : shaped → Tree before.sb.ninodes before.nodes) (consistent : Consistent made)
    (passes : Passes live (after.locking dp).refs (after.locking dp) made)
    (refs : made.refs = (after.locking dp).refs) (locks : made.locks = (after.locking dp).locks) :
    Wp (do
      iunlockput dp
      linkBad ip) made
      (fun _ final => Ends live shaped base before final)
      (Stops live shaped before) := by
  have refsMade : made.refs = base + Pi.single ip 1 + Pi.single dp 1 := by
    rw [refs, refs_locking, walking.refs]
  have lockedDp : made.locks dp = true := by
    rw [locks, locks_locking, update_self]
  have early : Passes live (base + Pi.single ip 1) after made := by
    apply (Passes.locking after dp).trans
    apply passes.mono
    intro other positive
    rw [refs_locking, walking.refs]
    exact add_single_pos_of_pos dp positive
  rw [wp_bind]
  refine (iunlockput_left live consistent refsMade (walking.nonneg dp) lockedDp
    (early.inOp.trans walking.inOp)).total ?_
  intro _ third left
  have counted := counting.later (early.trans left.passes)
  apply counted.linkBad_wp left.consistent _ left.refs tree
  rw [left.locks, locks, locks_locking, update_idem, walking.unlocked, update_eq_self_iff]

theorem linkNew_wp (start : Consistent after) (unlocked : after.locks = fun _ => false)
    (refs : after.refs = base + Pi.single ip 1) (held : 0 < base cwd) (nonzero : 0 ∉ path)
    (rooted : live → Rooted before cwd path) (shape : live → Shaped before) :
    Wp (linkNew cwd ip path) after (fun _ final => Ends live live base before final)
      (Stops live live before) := by
  have tree : live → Tree before.sb.ninodes before.nodes := fun isLive => (shape isLive).1
  have ready : Ready live after cwd := by
    refine ⟨start, unlocked, counting.inOp.trans counting.started, ?_,
      fun isLive => counting.closed (shape isLive)⟩
    rw [refs]
    exact add_single_pos_of_pos ip held
  rw [linkNew, wp_bind]
  refine (nameiparent_wp ready (fun isLive => counting.rooted held (shape isLive)
    (rooted isLive)) nonzero).mono ?_ fun stop final stops => stops.later counting.followed
  intro result fourth walked
  rw [refs] at walked
  have counted := counting.later walked.passes
  cases result with
  | none =>
    apply counted.linkBad_wp walked.consistent walked.unlocked _ tree
    rw [walked.refs, Option.elim_none, add_zero]
  | some found =>
    rcases found with ⟨dp, name⟩
    have nonneg := add_single_nonneg counting.nonneg ip
    have walking := walked.walking ready.inOp nonneg ready.closed
    rcases walked.name _ rfl rfl with ⟨isDir, short, nonzeroName⟩
    dsimp only at walking isDir short nonzeroName ⊢
    rw [wp_bind]
    refine walking.ilock_wp.mono ?_ fun stop final stops => stops.later counted.followed
    rintro _ locked ⟨isLocked, typed⟩
    subst isLocked
    rcases walking.locking typed with ⟨consistent, isLocked, heldDp⟩
    have inumDp : ((fourth.locking dp).icache dp).inum = (fourth.icache dp).inum :=
      inum_locking dp
    have inumIp : ((fourth.locking dp).icache ip).inum = (before.icache ip).inum := by
      rw [inum_locking, counted.inumIp]
    have inRange : ((fourth.locking dp).icache ip).inum < fourth.sb.ninodes := by
      apply (consistent.agrees ip).inRange
      show 0 < (fourth.locking dp).refs ip
      rw [refs_locking, walking.refs]
      exact add_single_pos_of_pos dp (add_single_pos counting.nonneg ip)
    have small : ((fourth.locking dp).icache ip).inum < 2 ^ 16 :=
      Nat.lt_of_lt_of_le inRange walked.consistent.whole.layout.numbers
    have isDirStill : ((fourth.locking dp).nodes ((fourth.locking dp).icache dp).inum).type =
        T_DIR := by
      rw [inumDp]
      exact isDir
    simp only [wp_bind, wp_get]
    have linkedStill : live →
        ((fourth.locking dp).nodes ((fourth.locking dp).icache dp).inum).Linked := by
      rw [inumDp]
      exact walking.linked
    have links : Wp (dirlink dp name ((fourth.locking dp).icache ip).inum) (fourth.locking dp)
        (DirLinked live (fourth.locking dp) dp name ((fourth.locking dp).icache ip).inum)
        (Stops live live (fourth.locking dp)) :=
      dirlink_wp consistent heldDp isLocked walking.inOp isDirStill
        ⟨small, short, nonzeroName⟩ inRange walking.closed linkedStill
    have followed : Followed live before (fourth.locking dp) :=
      counted.followed.trans (Followed.of_eq rfl)
    refine links.mono ?_ fun stop final stops => stops.later followed
    intro result made linked
    cases linked with
    | present madeConsistent passes madeRefs locks nodes entry =>
      exact counted.present_wp walking tree madeConsistent passes madeRefs locks
    | added absent added =>
      rcases added with ⟨position, _, empty, altered⟩
      rw [inumDp] at absent empty altered
      apply counted.linked_wp walking.refs walking.unlocked altered rfl
      intro isLive
      have dirLive := And.intro isDir (walking.linked isLive).2
      apply counted.tree_added (shape isLive) dirLive _ absent empty
      rw [altered.nodes, inumDp, inumIp]
      rfl

end Counting

/-- The state in which a call starts. -/
structure Starts (live : Prop) (store : Store) (cwd : Index) : Prop where
  consistent : Consistent store
  unlocked : store.locks = fun _ => false
  held : 0 < store.refs cwd
  shape : live → Shaped store

section

variable {live : Prop} {base : Index → Int} {store : Store} {ip : Index}

theorem Starts.ready (starts : Starts live store cwd) :
    Ready live { store with inOp := true } cwd :=
  ⟨starts.consistent.unread, starts.unlocked, rfl, starts.held,
    fun isLive => (starts.shape isLive).1.closed⟩

/-- A call that does nothing. -/
theorem Starts.unchanged (starts : Starts live store cwd) : Ends live live store.refs store store :=
  Ends.of_passes (Passes.refl store) starts.consistent rfl starts.unlocked
    fun isLive => (starts.shape isLive).1

theorem Walked.endOp_wp {value : α} {parent : Bool} {stops : Stop → Store → Prop}
    (walked : Walked live base parent { store with inOp := true } none after)
    (shape : live → Shaped store) :
    Wp (do
      endOp
      return value) after
      (fun _ final => Ends live live base store final) stops :=
  (walked.ends shape).begun.endOp_wp

/-- The link is counted, and the inode unlocked. -/
theorem Counting.start {counted : Store} (walking : Walking live base store ip)
    (isFile : (store.nodes (store.icache ip).inum).type ≠ T_DIR)
    (typed : (store.nodes (store.icache ip).inum).type ≠ 0)
    (altered : Altered (store.locking ip) counted ip
      { store.nodes (store.icache ip).inum with
        nlink := (store.nodes (store.icache ip).inum).nlink + 1 }) :
    Counting live base store (counted.unlocking ip) ip := by
  have edited := altered.edited
  have nodes : (counted.unlocking ip).nodes = update store.nodes (store.icache ip).inum
      { store.nodes (store.icache ip).inum with
        nlink := (store.nodes (store.icache ip).inum).nlink + 1 } := by
    have changed := altered.nodes
    rw [inum_locking] at changed
    exact changed
  refine ⟨edited.sb, walking.inOp, edited.inOp, ?_, ?_, ?_, ?_, ?_, walking.nonneg, isFile, typed⟩
  · intro other _
    rw [inum_unlocking, edited.inum_eq, inum_locking]
  · intro other _ different
    rw [nodes, update_of_ne different]
  · rw [nodes, update_self]
  · rw [nodes, update_idem, update_eq_self]
    exact Collects.refl _
  · exact Followed.of_eq edited.lookups

theorem Rooted.later (passes : Passes live base store after)
    (held : 0 < base cwd) (rooted : Rooted store cwd path) : Rooted after cwd path := by
  rcases rooted with absolute | linked
  · exact Or.inl absolute
  · refine Or.inr ?_
    rw [passes.inum cwd held, passes.kept cwd held]
    exact linked

theorem Walking.linkFound_wp (walking : Walking live base store ip)
    (held : 0 < base cwd) (nonzero : 0 ∉ path) (rooted : live → Rooted store cwd path)
    (shape : live → Shaped store) :
    Wp (do
      ilock ip
      if ((← get).icache ip).dinode.type = T_DIR then
        iunlockput ip
        endOp
        return -1
      else
        setDinode ip fun dinode => { dinode with nlink := dinode.nlink + 1 }
        iupdate ip
        iunlock ip
        linkNew cwd ip path) store
      (fun _ final => Ends live live base store final)
      (Stops live live store) := by
  rw [wp_bind]
  refine walking.ilock_wp.mono ?_ fun _ _ stops => stops
  rintro _ locked ⟨isLocked, typed⟩
  subst isLocked
  rcases walking.locking typed with ⟨consistent, isLocked, heldIp⟩
  have node := consistent.toIntact.nodes_eq heldIp isLocked
  rw [inum_locking] at node
  rw [wp_bind, wp_get, wp_ite]
  by_cases isDir : ((store.locking ip).icache ip).dinode.type = T_DIR
  · rw [if_pos isDir, wp_bind]
    refine (walking.fails_wp false typed).imp ?_
    intro _ after walked
    exact (walked.ends shape).endOp_wp
  · rw [if_neg isDir]
    have isFile := isDir
    rw [← node.1] at isFile
    refine assign_wp consistent heldIp isLocked walking.inOp
      (by exact fun _ => rfl) (by exact fun _ => rfl) (by exact fun _ => rfl) ?_
    intro counted altered
    have heldCounted : 0 < counted.refs ip := by
      rw [altered.edited.refs]
      exact heldIp
    have lockedCounted : counted.locks ip = true := by
      rw [altered.edited.locks]
      exact isLocked
    rw [wp_bind]
    refine (iunlock_wp heldCounted lockedCounted).total ?_
    intro _ after isAfter
    subst isAfter
    have counting : Counting live base store (counted.unlocking ip) ip := by
      apply Counting.start walking isFile typed
      rw [inum_locking, ← node.2] at altered
      exact altered
    apply counting.linkNew_wp (altered.consistent.unlocking heldCounted) _ _ held nonzero rooted
      shape
    · rw [locks_unlocking, altered.edited.locks, locks_locking, update_idem,
        walking.unlocked, update_eq_self_iff]
    · rw [refs_unlocking, altered.edited.refs, refs_locking, walking.refs]

theorem Starts.sysLink_wp (starts : Starts live store cwd) {old new : Option Path}
    (nonzero : (∀ path ∈ old, 0 ∉ path) ∧ ∀ path ∈ new, 0 ∉ path)
    (rooted : live → (∀ path ∈ old, Rooted store cwd path) ∧ ∀ path ∈ new, Rooted store cwd path) :
    Wp (sysLink cwd old new) store (fun _ after => Ends live live store.refs store after)
      (Stops live live store) := by
  cases old with
  | none =>
    rw [sysLink, wp_pure]
    · exact starts.unchanged
    · exact fun _ _ impossible => nomatch impossible
  | some old =>
    cases new with
    | none =>
      rw [sysLink, wp_pure]
      · exact starts.unchanged
      · exact fun _ _ _ impossible => nomatch impossible
    | some new =>
      rw [sysLink, wp_bind, wp_beginOp, wp_bind]
      refine (namei_wp starts.ready (fun isLive => (rooted isLive).1 old rfl)
        (nonzero.1 old rfl)).mono ?_ fun _ _ stops => stops.begun
      rintro result middle ⟨name, walked⟩
      cases result with
      | none => exact walked.endOp_wp starts.shape
      | some ip =>
        have walking := walked.walking rfl
          starts.consistent.toIntact.refs_nonneg starts.ready.closed
        refine (walking.linkFound_wp starts.held (nonzero.2 new rfl) ?_ ?_).mono ?_ ?_
        · intro isLive
          exact Rooted.later walked.passes starts.held ((rooted isLive).2 new rfl)
        · intro isLive
          exact walked.passes.shape (starts.shape isLive)
        · intro _ after ends
          exact (Ends.later walked.passes ends).begun
        · intro stop after stops
          exact (stops.later walked.passes.followed).begun

end

end Fs
end Xv6
