import Xv6.Fs.Runs

namespace Xv6
namespace Fs

open Foundation
open Buffer (Block Pid Stop)

/-!
# Names and links over whole runs

The directories form a tree, and the link counts agree with it, as long as no
call walks from a directory that was removed and no count of links overflows.
A working directory that was removed keeps its two dots.  Its parent may be
removed and freed after it, so that `".."` names an inode of another life, or
none at all; and a file that is made in it is found by nobody, while its count
of links is one.  Both are shown on a small image.  What is proved for all runs
excludes such calls.
-/

/-! ## Runs that keep the tree -/

/-- Every count of links can be increased. -/
def System.FewLinks (system : System) : Prop :=
  ∀ inum, inum < system.store.sb.ninodes → (system.store.nodes inum).nlink.toNat < 32767

instance (system : System) : Decidable system.FewLinks :=
  inferInstanceAs (Decidable (∀ inum, inum < _ → _))

instance (store : Store) (cwd : Index) (path : Path) : Decidable (Rooted store cwd path) :=
  inferInstanceAs (Decidable (_ ∨ _ ∧ _))

instance (system : System) : (action : Action) → Decidable (action.Rooted system)
  | .call pid request => inferInstanceAs (Decidable (∀ cwd ∈ (system.procs pid).cwd,
      ∀ path ∈ request.paths, Rooted system.store cwd path))
  | .resume _ | .evict _ => .isTrue trivial

/-- No count of links is at its limit, and the call does not walk from a
directory that was removed. -/
def Careful (system : System) (action : Action) : Prop :=
  system.FewLinks ∧ action.Rooted system

instance (system : System) (action : Action) : Decidable (Careful system action) :=
  inferInstanceAs (Decidable (_ ∧ _))

/-- The invariant with the tree of directories.  No lookup has found a free
inode. -/
structure Named (system : System) : Prop extends Kept system where
  tree : Tree system.store.sb.ninodes system.store.nodes
  lookups : ∀ lookup ∈ system.store.lookups, lookup.type ≠ 0

variable {inum : Nat} {start final : System} {schedule : List Action}

theorem Store.nodes_of_le (store : Store) (beyond : store.sb.ninodes ≤ inum) :
    store.nodes inum = Node.free := by
  have fresh : store.volume.dinodes inum = Dinode.fresh 0 := if_neg (Nat.not_lt_of_le beyond)
  rw [Store.nodes, Volume.node, fresh]
  rfl

namespace Named

variable {system after : System} {action : Action}

theorem shaped (named : Named system) (few : system.FewLinks) : Shaped system.store := by
  refine ⟨named.tree, ?_⟩
  intro inum
  by_cases inRange : inum < system.store.sb.ninodes
  · exact few inum inRange
  · rw [system.store.nodes_of_le (Nat.le_of_not_lt inRange)]
    decide

theorem next (named : Named system) (careful : Careful system action)
    (stepped : step system action = .next after) : Named after := by
  have advanced : Kept after ∧ Advances True system.store after.store :=
    named.toKept.next (fun _ => named.shaped careful.1) (fun _ => careful.2) stepped
  refine ⟨advanced.1, ?_, ?_⟩
  · rw [advanced.2.sb]
    exact advanced.2.tree trivial
  · intro lookup member
    rcases advanced.2.followed lookup member with before | typed
    · exact named.lookups lookup before
    · exact typed trivial

theorem halted {reason : Panic} (named : Named system) (careful : Careful system action)
    (halts : step system action = .halted reason) :
    Exhausted (.panic reason) ∨ reason = .initExiting := by
  have reasons : _ ∨ _ ∨ ¬ True ∧ _ :=
    named.toKept.halted (fun _ => named.shaped careful.1) (fun _ => careful.2) halts
  rcases reasons with exhausted | isInit | ⟨impossible, _⟩
  · exact Or.inl exhausted
  · exact Or.inr isInit
  · exact absurd trivial impossible

/-- Every state of a run. -/
theorem run (named : Named start) (careful : Meets step Careful start schedule)
    (reached : exec step start schedule = .next final) : Named final :=
  exec_invariant Named (fun _ _ _ => next) named careful reached

end Named

variable {system : System}

theorem Starting.named (starting : Starting system)
    (tree : Tree system.store.sb.ninodes system.store.nodes) : Named system := by
  refine ⟨starting.kept, tree, ?_⟩
  rw [starting.history]
  exact fun lookup impossible => absurd impossible List.not_mem_nil

namespace Sample

/-- The nodes of the image form a tree. -/
theorem tree : Tree store.sb.ninodes store.nodes := by
  have isFree : ∀ inum, store.sb.ninodes ≤ inum → store.nodes inum = Node.free :=
    fun inum beyond => store.nodes_of_le beyond
  have checked : ∀ dir, dir < store.sb.ninodes →
      ((store.nodes dir).type ≠ T_DIR → (store.nodes dir).entries = []) ∧
      ((store.nodes dir).type = T_DIR → (store.nodes dir).entries =
        ⟨dir, dotName⟩ :: ⟨(store.nodes dir).parent, dotdotName⟩ :: (store.nodes dir).children) ∧
      ((store.nodes dir).type ≠ 0 → (store.nodes dir).nlink.toNat =
        named store.sb.ninodes store.nodes dir + subdirs store.sb.ninodes store.nodes dir) ∧
      ((store.nodes dir).Live →
        named store.sb.ninodes store.nodes dir = if dir = ROOTINO then 0 else 1) ∧
      ((store.nodes dir).type = T_DIR → (store.nodes dir).nlink ≠ 0) := by
    decide +kernel
  have children : ∀ dir, dir < store.sb.ninodes → ∀ entry ∈ (store.nodes dir).children,
      entry.inum ≠ 0 ∧ dir < entry.inum ∧ entry.name ≠ dotName ∧ entry.name ≠ dotdotName ∧
        (store.nodes entry.inum).type ≠ 0 ∧ (store.nodes entry.inum).parent = dir := by
    decide +kernel
  have inRange : ∀ dir, ∀ entry ∈ (store.nodes dir).children, dir < store.sb.ninodes := by
    intro dir entry member
    refine Nat.lt_of_not_le fun beyond => ?_
    rw [isFree dir beyond] at member
    cases member
  have typedInRange : ∀ inum, (store.nodes inum).type ≠ 0 → inum < store.sb.ninodes := by
    intro inum typed
    refine Nat.lt_of_not_le fun beyond => typed ?_
    rw [isFree inum beyond]
    rfl
  have dirInRange : ∀ dir, (store.nodes dir).type = T_DIR → dir < store.sb.ninodes := by
    intro dir isDir
    apply typedInRange
    rw [isDir]
    decide
  refine ⟨by decide +kernel, ?_, ?_, by decide +kernel, by decide +kernel, ?_, ?_, ?_, ?_, ?_, ?_,
    ?_, ⟨fun dir => dir, ?_⟩⟩
  · intro inum beyond
    rw [isFree inum beyond]
    rfl
  · intro inum notDir
    by_cases inside : inum < store.sb.ninodes
    · exact (checked inum inside).1 notDir
    · rw [isFree inum (Nat.le_of_not_lt inside)]
      rfl
  · exact fun dir isDir => (checked dir (dirInRange dir isDir)).2.1 isDir
  · intro dir entry member _
    have child := children dir (inRange dir entry member) entry member
    exact ⟨child.2.2.1, child.2.2.2.1⟩
  · exact fun dir entry member _ =>
      (children dir (inRange dir entry member) entry member).2.2.2.2.1
  · exact fun inum typed => (checked inum (typedInRange inum typed)).2.2.1 typed
  · exact fun dir live => (checked dir (dirInRange dir live.1)).2.2.2.1 live
  · exact fun dir entry member _ =>
      (children dir (inRange dir entry member) entry member).2.2.2.2.2
  · intro dir isDir unlinked
    exact absurd unlinked ((checked dir (dirInRange dir isDir)).2.2.2.2 isDir)
  · exact fun dir entry member _ => (children dir (inRange dir entry member) entry member).2.1

end Sample

/-! ## Entries that are followed -/

variable {action : Action}

/-- What a step looks up in directories has a type, whether the step returns or
stops. -/
theorem Named.program_wp {program : Sys PUnit}
    (named : Named system) (careful : Careful system action)
    (isProgram : action.program system = some program) :
    Wp program system (fun _ after => ∀ lookup ∈ after.store.lookups, lookup.type ≠ 0)
      fun _ after => ∀ lookup ∈ after.store.lookups, lookup.type ≠ 0 := by
  have spec := named.toKept.program_wp (fun _ : True => named.shaped careful.1)
    (fun _ => careful.2) isProgram
  refine spec.mono ?_ ?_
  · rintro _ after ⟨changed, done⟩ lookup member
    rcases done.advances.followed lookup member with before | typed
    · exact named.lookups lookup before
    · exact typed trivial
  · intro stop after halts lookup member
    rcases halts with stops | ⟨_, same⟩
    · rcases stops.followed lookup member with before | typed
      · exact named.lookups lookup before
      · exact typed trivial
    · rw [same] at member
      exact named.lookups lookup member

/-- No dangling entry is followed on a run that does not walk from removed
directories and does not exhaust a count of links. -/
theorem followed_entries_typed (starting : Starting start) (tree : Tree start.store.sb.ninodes start.store.nodes)
    (careful : Meets step Careful start schedule)
    (reached : exec step start schedule = .next final) :
    (∀ lookup ∈ final.store.lookups, lookup.type ≠ 0) ∧
    ∀ action, Careful final action → step final action ≠ .halted .ilockNoType ∧
      ∀ program, action.program final = some program →
        Wp program final (fun _ after => ∀ lookup ∈ after.store.lookups, lookup.type ≠ 0)
          fun _ after => ∀ lookup ∈ after.store.lookups, lookup.type ≠ 0 := by
  have named := (starting.named tree).run careful reached
  refine ⟨named.lookups, ?_⟩
  intro action isCareful
  refine ⟨?_, fun program isProgram => named.program_wp isCareful isProgram⟩
  intro halts
  rcases named.halted isCareful halts with exhausted | isInit
  · simp [Exhausted] at exhausted
  · cases isInit

/-- A process works in `/a`, removes the directory below it, and makes a file
under the same name. -/
def replaceBelow : List Action :=
  [.call 0 (.chdir (some [97])), .call 0 (.unlink (some [98])),
   .call 0 (.open (some [46, 46, 47, 97, 47, 98]) (O_CREATE ||| O_RDWR)), .call 0 (.close 0)]

theorem followed_entries_typed_replaceBelow : ∃ final,
    exec step Sample.system replaceBelow = .next final ∧ final.store.lookups ≠ [] ∧
      ∀ lookup ∈ final.store.lookups, lookup.type ≠ 0 := by
  have ran : ∃ final, exec step Sample.system replaceBelow = .next final ∧
      final.store.lookups ≠ [] := by
    decide +kernel
  have careful : Meets step Careful Sample.system replaceBelow := by
    decide +kernel
  rcases ran with ⟨final, reached, someLookups⟩
  exact ⟨final, reached, someLookups,
    (followed_entries_typed Sample.starting Sample.tree careful reached).1⟩

/-- A process works in `/a/b`, which is removed, and `/a` after it.  The entry
`".."` of the working directory is still there. -/
def leaveRemoved : List Action :=
  [.call 0 (.chdir (some [97, 47, 98])), .call 0 (.unlink (some [47, 97, 47, 98])),
   .call 0 (.unlink (some [47, 97])), .call 0 (.open (some [46, 46]) O_RDONLY)]

/-- The inode that the entry names was freed, and `ilock` stops the kernel. -/
theorem leaveRemoved_no_type : Starting Sample.system ∧
    exec step Sample.system leaveRemoved = .halted .ilockNoType := by
  exact ⟨Sample.starting, by decide +kernel⟩

/-! ## The panics of the file system -/

/-- Of the panics in the code, a run reaches only those for what is exhausted,
for init exiting, and the two that a removed working directory or an overflown
count of links leads to.  A careful run reaches neither of these two. -/
theorem run_panics {reason : Panic} (starting : Starting start)
    (halts : exec step start schedule = .halted reason) :
    (Exhausted (.panic reason) ∨ reason ∈ [.initExiting, .ilockNoType, .unlinkNlink]) ∧
      (Tree start.store.sb.ninodes start.store.nodes → Meets step Careful start schedule →
        Exhausted (.panic reason) ∨ reason = .initExiting) := by
  rcases exec_eq_halted halts with ⟨before, action, after, middle, isSchedule, reached, stopped⟩
  subst isSchedule
  refine ⟨?_, fun tree careful => ?_⟩
  · have kept := starting.kept.run reached
    have reasons : _ ∨ _ ∨ ¬ False ∧ _ := kept.halted (fun impossible => impossible.elim)
      (fun impossible => impossible.elim) stopped
    rcases reasons with exhausted | isInit | ⟨_, noType | noLink⟩
    · exact Or.inl exhausted
    all_goals simp [*]
  · have named := (starting.named tree).run careful.append_left reached
    exact named.halted (careful.at reached) stopped

theorem run_panics_leaveRemoved : exec step Sample.system leaveRemoved = .halted .ilockNoType ∧
    ¬ Meets step Careful Sample.system leaveRemoved := by
  have halts : exec step Sample.system leaveRemoved = .halted .ilockNoType := by
    decide +kernel
  refine ⟨halts, fun careful => ?_⟩
  rcases (run_panics Sample.starting halts).2 Sample.tree careful with exhausted | isInit
  · simp [Exhausted] at exhausted
  · cases isInit

/-! ## Link counts -/

/-- How many entries other than `"."` name the inode, in directories with
links. -/
def names (count : Nat) (nodes : Nat → Node) (inum : Nat) : Nat :=
  ∑ dir ∈ Finset.range count, if (nodes dir).Live then
    (nodes dir).entries.countP fun entry => entry.inum = inum ∧ entry.name ≠ dotName else 0

/-- How many entries of a node other than its dots name the inode. -/
def Node.properNames (node : Node) (inum : Nat) : Nat :=
  node.entries.countP fun entry =>
    entry.inum = inum ∧ entry.name ≠ dotName ∧ entry.name ≠ dotdotName

/-- The directories form a tree in which every inode has as many links as
names. -/
structure LinksExact (count : Nat) (nodes : Nat → Node) : Prop where
  links : ∀ inum, (nodes inum).type ≠ 0 → (nodes inum).nlink.toNat = names count nodes inum
  root : (nodes ROOTINO).Live ∧ (nodes ROOTINO).parent = ROOTINO
  dots : ∀ dir, (nodes dir).Live → (nodes (nodes dir).parent).Live ∧ ∃ rest,
    (nodes dir).entries = ⟨dir, dotName⟩ :: ⟨(nodes dir).parent, dotdotName⟩ :: rest
  single : ∀ dir, (nodes dir).Live → dir ≠ ROOTINO →
    ∑ other ∈ Finset.range count, (nodes other).properNames dir = 1 ∧
      (nodes (nodes dir).parent).properNames dir = 1
  removed : ∀ dir, (nodes dir).type = T_DIR → (nodes dir).nlink = 0 →
    ∀ entry ∈ (nodes dir).entries, entry.inum ≠ 0 → entry.name = dotName ∨ entry.name = dotdotName
  typed : ∀ dir, (nodes dir).Live → ∀ entry ∈ (nodes dir).entries, entry.inum ≠ 0 →
    (nodes entry.inum).type ≠ 0

namespace Tree

variable {count : Nat} {nodes : Nat → Node}

section

variable (tree : Tree count nodes) (nonzero : inum ≠ 0)
include tree nonzero

theorem countP_entries (dir : Nat) :
    (if (nodes dir).Live then
      (nodes dir).entries.countP fun entry => entry.inum = inum ∧ entry.name ≠ dotName else 0) =
    ((nodes dir).children.countP fun entry => entry.inum = inum) +
      if (nodes dir).Live ∧ (nodes dir).parent = inum then 1 else 0 := by
  have proper : ((nodes dir).children.countP fun entry =>
      entry.inum = inum ∧ entry.name ≠ dotName) =
      (nodes dir).children.countP fun entry => entry.inum = inum := by
    apply List.countP_congr
    intro entry member
    simp only [decide_eq_true_eq, and_iff_left_iff_imp]
    intro isInum
    exact (tree.proper dir entry member (by rw [isInum]; exact nonzero)).1
  by_cases live : (nodes dir).Live
  · rw [if_pos live, tree.dots dir live.1, List.countP_cons, List.countP_cons, proper]
    simp only [live, true_and, ne_eq, not_true_eq_false, and_false, decide_false,
      Bool.false_eq_true, if_false, add_zero, decide_eq_true_eq]
    congr 1
    simp only [(by decide : dotdotName ≠ dotName), not_false_eq_true, and_true]
  · rw [if_neg live, if_neg fun both => live both.1, List.countP_eq_zero.mpr]
    intro entry member isInum
    rw [decide_eq_true_eq] at isInum
    exact live (tree.live_of_child member (by rw [isInum]; exact nonzero))

theorem names_eq : names count nodes inum = named count nodes inum + subdirs count nodes inum := by
  rw [names, named, subdirs, ← Finset.sum_add_distrib]
  exact Finset.sum_congr rfl fun dir _ => tree.countP_entries nonzero dir

theorem properNames_eq (dir : Nat) :
    (nodes dir).properNames inum = (nodes dir).children.countP fun entry => entry.inum = inum := by
  rw [Node.properNames]
  by_cases isDir : (nodes dir).type = T_DIR
  · rw [tree.dots dir isDir, List.countP_cons, List.countP_cons]
    simp only [ne_eq, not_true_eq_false, and_false, false_and, decide_false, Bool.false_eq_true,
      if_false, add_zero]
    apply List.countP_congr
    intro entry member
    simp only [decide_eq_true_eq, and_iff_left_iff_imp]
    intro isInum
    exact tree.proper dir entry member (by rw [isInum]; exact nonzero)
  · rw [Node.children, tree.files dir isDir]
    rfl

end

theorem linksExact (tree : Tree count nodes) : LinksExact count nodes := by
  have proper : ∀ dir, (nodes dir).type = T_DIR → ∀ entry ∈ (nodes dir).entries,
      entry.name = dotName ∨ entry.name = dotdotName ∨ entry ∈ (nodes dir).children := by
    intro dir isDir entry member
    rw [tree.dots dir isDir] at member
    rcases List.mem_cons.mp member with isDot | behind
    · exact Or.inl (by rw [isDot])
    · rcases List.mem_cons.mp behind with isDotdot | isChild
      · exact Or.inr (Or.inl (by rw [isDotdot]))
      · exact Or.inr (Or.inr isChild)
  refine ⟨?_, ⟨tree.root, tree.rootParent⟩, ?_, ?_, ?_, ?_⟩
  · intro inum typed
    rw [tree.names_eq (tree.ne_zero typed), tree.links inum typed]
  · exact fun dir live => ⟨tree.parent_live live, _, tree.dots dir live.1⟩
  · intro dir live notRoot
    have nonzero := tree.ne_zero live.linked.1
    have total : ∑ other ∈ Finset.range count, (nodes other).properNames dir = 1 := by
      have home := tree.home dir live
      rw [if_neg notRoot] at home
      rw [← home, named]
      exact Finset.sum_congr rfl fun other _ => tree.properNames_eq nonzero other
    refine ⟨total, ?_⟩
    rcases tree.exists_entry live notRoot with ⟨entry, member, isDir⟩
    have inRange := tree.lt_of_typed (tree.parent_live live).linked.1
    have atMost : (nodes (nodes dir).parent).properNames dir ≤
        ∑ other ∈ Finset.range count, (nodes other).properNames dir :=
      Finset.single_le_sum (fun other _ => Nat.zero_le ((nodes other).properNames dir))
        (Finset.mem_range.mpr inRange)
    have atLeast : 0 < (nodes (nodes dir).parent).properNames dir := by
      rw [tree.properNames_eq nonzero, List.countP_pos_iff]
      exact ⟨entry, member, by rw [isDir, decide_eq_true_eq]⟩
    omega
  · intro dir isDir unlinked entry member nonzero
    rcases proper dir isDir entry member with isDot | isDotdot | isChild
    · exact Or.inl isDot
    · exact Or.inr isDotdot
    · exact absurd (tree.removed dir isDir unlinked entry isChild) nonzero
  · intro dir live entry member nonzero
    exact (tree.closed.linked dir live entry member nonzero).1

end Tree

/-- The processes that make calls work in the root directory, and no count of
links is at its limit. -/
def InRoot (system : System) (action : Action) : Prop :=
  system.FewLinks ∧ match action with
    | .call pid _ => ∀ cwd ∈ (system.procs pid).cwd, (system.store.icache cwd).inum = ROOTINO
    | .resume _ | .evict _ => True

instance (system : System) : (action : Action) → Decidable (InRoot system action)
  | .call pid _ => inferInstanceAs (Decidable (system.FewLinks ∧
      ∀ cwd ∈ (system.procs pid).cwd, (system.store.icache cwd).inum = ROOTINO))
  | .resume _ | .evict _ => inferInstanceAs (Decidable (system.FewLinks ∧ True))

theorem Named.careful (named : Named system)
    (inRoot : InRoot system action) : Careful system action := by
  refine ⟨inRoot.1, ?_⟩
  cases action with
  | call pid request =>
    intro cwd isCwd path _
    refine Or.inr ?_
    rw [inRoot.2 cwd isCwd]
    exact named.tree.root.linked
  | resume pid => trivial
  | evict blockno => trivial

/-- Link counts agree with the tree of directories in every state between
calls, as long as the processes work in the root directory and no count is
exhausted. -/
theorem links_exact (starting : Starting start) (tree : Tree start.store.sb.ninodes start.store.nodes)
    (inRoot : Meets step InRoot start schedule)
    (reached : exec step start schedule = .next final) :
    LinksExact final.store.sb.ninodes final.store.nodes ∧
    ∀ action reason, InRoot final action → step final action = .halted reason →
      reason ≠ .unlinkNlink ∧ reason ≠ .createDots ∧ reason ≠ .createDirlink ∧
        reason ≠ .ilockNoType := by
  have named : Named final := exec_invariant Named
    (fun _ _ _ named inRoot => named.next (named.careful inRoot)) (starting.named tree)
    inRoot reached
  refine ⟨named.tree.linksExact, ?_⟩
  intro action reason isInRoot halts
  have reasons := named.halted (named.careful isInRoot) halts
  simp only [Exhausted, Stop.panic.injEq] at reasons
  refine ⟨?_, ?_, ?_, ?_⟩
  all_goals
    intro isReason
    subst isReason
    simp at reasons

/-- A directory is made, and two are removed. -/
def makeAndRemove : List Action :=
  [.call 0 (.mkdir (some [99])), .call 0 (.unlink (some [97, 47, 98])),
   .call 0 (.unlink (some [97]))]

theorem links_exact_makeAndRemove : ∃ final,
    exec step Sample.system makeAndRemove = .next final ∧
      (final.store.nodes ROOTINO).nlink.toNat =
        names final.store.sb.ninodes final.store.nodes ROOTINO ∧
      (final.store.nodes ROOTINO).nlink = 2 := by
  have ran : ∃ final, exec step Sample.system makeAndRemove = .next final ∧
      (final.store.nodes ROOTINO).nlink = 2 := by
    decide +kernel
  have inRoot : Meets step InRoot Sample.system makeAndRemove := by
    decide +kernel
  rcases ran with ⟨final, reached, two⟩
  have exact := (links_exact Sample.starting Sample.tree inRoot reached).1
  exact ⟨final, reached, exact.links ROOTINO exact.root.1.linked.1, two⟩

/-! ## Inodes that nobody finds -/

theorem Reachable.mem_of_closed {nodes : Nat → Node} {inside : Nat → Prop}
    (reachable : Reachable nodes inum) (root : inside ROOTINO)
    (closed : ∀ dir, inside dir → ∀ entry ∈ (nodes dir).entries, entry.inum ≠ 0 →
      inside entry.inum) : inside inum := by
  induction reachable with
  | root => exact root
  | entry _ _ member nonzero ih =>
    exact closed _ ih _ member nonzero

/-- Without open files, and with all processes in the root directory, an inode
without links is not in use. -/
theorem Named.linked (named : Named system) (closed : ∀ pid fd, (system.procs pid).ofile fd = none)
    (home : ∀ pid cwd, (system.procs pid).cwd = some cwd →
      (system.store.icache cwd).inum = ROOTINO) (typed : (system.store.nodes inum).type ≠ 0) :
    (system.store.nodes inum).Linked := by
  refine ⟨typed, ?_⟩
  intro unlinked
  rcases named.exact.consistent.collected inum typed unlinked with ⟨ip, held, _, isInum⟩
  have noFiles : ∀ file, (system.ftable file).opens ip = 0 := by
    intro file
    have counted := named.exact.files file
    have none : system.descriptors file = 0 := by
      rw [System.descriptors]
      refine Finset.sum_eq_zero fun pid _ => ?_
      rw [Process.descriptors]
      refine Finset.sum_eq_zero fun fd _ => ?_
      rw [closed, points_none]
      rfl
    rw [none, Pi.zero_apply, add_zero] at counted
    have isNone := (named.exact.closed file).mpr counted
    rw [File.opens, isNone, if_neg]
    rintro ⟨impossible | impossible, _⟩
    · cases impossible
    · cases impossible
  have users := congrFun named.exact.inodes ip
  rw [System.users, Finset.sum_eq_zero fun file _ => noFiles file, zero_add] at users
  rcases System.exists_cwd (lt_of_lt_of_eq held users) with ⟨pid, isCwd⟩
  rw [← isInum, home pid ip isCwd] at unlinked
  exact named.tree.root.2 unlinked

/-- No inode is leaked on a run that does not walk from removed directories and
does not exhaust a count of links. -/
theorem inodes_found (starting : Starting start) (tree : Tree start.store.sb.ninodes start.store.nodes)
    (careful : Meets step Careful start schedule)
    (reached : exec step start schedule = .next final)
    (closed : ∀ pid fd, (final.procs pid).ofile fd = none)
    (home : ∀ pid cwd, (final.procs pid).cwd = some cwd → (final.store.icache cwd).inum = ROOTINO) :
    ∀ inum, (final.store.nodes inum).type ≠ 0 → Reachable final.store.nodes inum := by
  intro inum typed
  have named := (starting.named tree).run careful reached
  exact named.tree.reachable_of_linked (named.linked closed home typed)

/-- An open file is removed, and closed. -/
def removeOpen : List Action :=
  [.call 0 (.open (some [102]) (O_CREATE ||| O_RDWR)), .call 0 (.unlink (some [102])),
   .call 0 (.close 0)]

theorem inodes_found_removeOpen : ∃ final, exec step Sample.system removeOpen = .next final ∧
    Reachable final.store.nodes 3 := by
  have ran : ∃ final, exec step Sample.system removeOpen = .next final ∧
      ((∀ pid fd, (final.procs pid).ofile fd = none) ∧
        (∀ pid cwd, (final.procs pid).cwd = some cwd →
          (final.store.icache cwd).inum = ROOTINO) ∧ (final.store.nodes 3).type ≠ 0) := by
    decide +kernel
  have careful : Meets step Careful Sample.system removeOpen := by
    decide +kernel
  rcases ran with ⟨final, reached, closed, home, typed⟩
  exact ⟨final, reached, inodes_found Sample.starting Sample.tree careful reached closed home 3
    typed⟩

/-- A process works in `/a/b`, which is removed, and makes a file there. -/
def makeInRemoved : List Action :=
  [.call 0 (.chdir (some [97, 47, 98])), .call 0 (.unlink (some [47, 97, 47, 98])),
   .call 0 (.open (some [102]) (O_CREATE ||| O_RDWR)), .call 0 (.close 0),
   .call 0 (.chdir (some [47]))]

/-- The file has a link and no name. -/
theorem makeInRemoved_leaks : ∃ final, exec step Sample.system makeInRemoved = .next final ∧
    (∀ pid fd, (final.procs pid).ofile fd = none) ∧
    (∀ pid cwd, (final.procs pid).cwd = some cwd → (final.store.icache cwd).inum = ROOTINO) ∧
    (final.store.nodes 4).type ≠ 0 ∧ ¬ Reachable final.store.nodes 4 := by
  have ran : ∃ final, exec step Sample.system makeInRemoved = .next final ∧
      ((∀ pid fd, (final.procs pid).ofile fd = none) ∧
        (∀ pid cwd, (final.procs pid).cwd = some cwd →
          (final.store.icache cwd).inum = ROOTINO) ∧ (final.store.nodes 4).type ≠ 0 ∧
        ∀ dir ∈ [1, 2], ∀ entry ∈ (final.store.nodes dir).entries, entry.inum ≠ 0 →
          entry.inum ∈ [1, 2]) := by
    decide +kernel
  rcases ran with ⟨final, reached, closed, home, typed, inside⟩
  refine ⟨final, reached, closed, home, typed, ?_⟩
  intro reachable
  have found : 4 ∈ [1, 2] := reachable.mem_of_closed (by decide) inside
  exact absurd found (by decide)

end Fs
end Xv6
