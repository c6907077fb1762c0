import Xv6.Fs.Steps

namespace Xv6
namespace Fs

open Foundation
open Buffer (Block Pid Stop)

/-!
# Runs of the file system

A step of the system is a call, a further transaction of a call, or the
eviction of a buffer.  Whatever the step, the counts stay exact and the volume
stays whole, so both hold in every state that a schedule reaches from an image
in order.  Three consequences are drawn here: references are counted exactly,
blocks have one owner, and nothing is read through a hole.

The parameter `live` of the lemmas about calls adds a condition on the tree of
directories.  It is not used here.
-/

/-! ## Steps -/

/-- The paths that a call walks. -/
def Call.paths : Call → List Path
  | .open path _ | .mkdir path | .mknod path _ _ | .unlink path | .chdir path | .exec path _ =>
    path.toList
  | .link old new => old.toList ++ new.toList
  | .dup _ | .close _ | .pipe .. | .fstat _ | .read .. | .write .. | .fork _ | .exit => []

/-- A call does not walk from a directory that was removed. -/
def Action.Rooted (system : System) : Action → Prop
  | .call pid request => ∀ cwd ∈ (system.procs pid).cwd, ∀ path ∈ request.paths,
      Fs.Rooted system.store cwd path
  | .resume _ | .evict _ => True

/-- What holds between the steps of the system. -/
structure Kept (system : System) : Prop where
  exact : Exact 0 system
  settled : ∀ pid, SettledAt system pid

/-- Why a step may stop. -/
def Halts (live : Prop) (system : System) (stop : Stop) (after : System) : Prop :=
  Stops live live system.store stop after.store ∨ stop = .panic .initExiting ∧ after = system

section

variable {live : Prop} {system after : System} {pid : Pid} {cwd : Index} {action : Action}

theorem Calling.run_wp (calling : Calling live system pid cwd) {request : Call}
    (settled : ∀ pid, SettledAt system pid) (admits : system.Admits request)
    (rooted : live → ∀ path ∈ request.paths, Rooted system.store cwd path) :
    Wp (request.run pid cwd) system (fun _ after => ∃ changed, Done live changed system after)
      (Halts live system) := by
  have one : ∀ {program : Sys PUnit},
      Wp program system (fun _ => Done live (· = pid) system)
        (fun stop after => Stops live live system.store stop after.store) →
      Wp program system (fun _ after => ∃ changed, Done live changed system after)
        (Halts live system) := fun spec =>
    spec.mono (fun _ _ done => ⟨_, done⟩) fun _ _ stops => Or.inl stops
  cases request with
  | «open» path omode =>
    apply one
    rw [Call.run, wp_discard]
    exact calling.sysOpen_wp admits fun isLive path' isPath =>
      rooted isLive path' (Option.mem_toList.mpr isPath)
  | mkdir path | mknod path major minor =>
    apply one
    rw [Call.run, wp_discard]
    apply calling.onStore_wp
    exact calling.starts.makeNode_wp (by decide) admits fun isLive path' isPath =>
      rooted isLive path' (Option.mem_toList.mpr isPath)
  | link old new =>
    apply one
    rw [Call.run, wp_discard]
    apply calling.onStore_wp
    apply calling.starts.sysLink_wp admits
    intro isLive
    constructor
    · exact fun path isPath =>
        rooted isLive path (List.mem_append_left _ (Option.mem_toList.mpr isPath))
    · exact fun path isPath =>
        rooted isLive path (List.mem_append_right _ (Option.mem_toList.mpr isPath))
  | unlink path =>
    apply one
    rw [Call.run, wp_discard]
    apply calling.onStore_wp
    exact calling.starts.sysUnlink_wp admits fun isLive path' isPath =>
      rooted isLive path' (Option.mem_toList.mpr isPath)
  | chdir path =>
    apply one
    exact calling.chdir_wp admits fun isLive path' isPath =>
      rooted isLive path' (Option.mem_toList.mpr isPath)
  | exec path reads =>
    apply one
    rw [Call.run]
    apply calling.onStore_wp
    exact calling.starts.sysExec_wp admits.1 admits.2 fun isLive path' isPath =>
      rooted isLive path' (Option.mem_toList.mpr isPath)
  | dup fd =>
    apply one
    rw [Call.run, wp_discard]
    exact calling.sysDup_wp fd
  | close fd =>
    apply one
    rw [Call.run, wp_discard]
    exact calling.sysClose_wp fd
  | pipe page copied =>
    apply one
    rw [Call.run, wp_discard]
    exact calling.sysPipe_wp admits
  | fstat fd =>
    apply one
    rw [Call.run, wp_discard]
    exact calling.sysFstat_wp
  | read fd memory address n =>
    apply one
    rw [Call.run, wp_discard]
    exact calling.sysRead_wp
  | write fd memory address n =>
    apply one
    rw [Call.run, wp_discard]
    exact calling.sysWrite_wp
  | fork child =>
    rw [Call.run]
    exact (calling.sysFork_wp (settled child) admits).imp fun _ _ done => ⟨_, done⟩
  | exit =>
    by_cases isInit : pid = 0
    · rw [Call.run, wp_ite, if_pos isInit, wp_throw]
      exact Or.inr ⟨rfl, rfl⟩
    · exact (calling.exit_wp isInit).imp fun _ _ done => ⟨_, done⟩

/-- The buffer cache evicts a buffer. -/
theorem Exact.evict (exact : Exact 0 system) (shape : live → Shaped system.store) (blockno : Nat) :
    Done live (fun _ => False) system (system.withStore (Fs.evict system.store blockno)) := by
  have evicted : Consistent _ ∧ Passes live system.store.refs _ _ :=
    exact.consistent.evict blockno
  have ends : Ends live live system.store.refs system.store (Fs.evict system.store blockno) :=
    Ends.of_passes evicted.2 evicted.1 rfl exact.unlocked fun isLive => (shape isLive).1
  exact ⟨exact.withStore ends, fun _ _ => rfl, fun _ impossible => impossible.elim,
    Stays.refl system, ends.advances⟩

namespace Kept

section

variable (kept : Kept system) (shape : live → Shaped system.store)
  (rooted : live → action.Rooted system)
include kept shape rooted

theorem program_wp {program : Sys PUnit} (isProgram : action.program system = some program) :
    Wp program system (fun _ after => ∃ changed, Done live changed system after)
      (Halts live system) := by
  cases action with
  | call pid request =>
    simp only [Action.program] at isProgram
    split at isProgram
    · rename_i cwd isCwd isPending
      split at isProgram
      · rename_i admits
        cases isProgram
        have calling : Calling live system pid cwd := ⟨kept.exact, isCwd, isPending, shape⟩
        exact calling.run_wp kept.settled admits fun isLive => rooted isLive cwd isCwd
      · cases isProgram
    · cases isProgram
  | resume pid =>
    have resuming : Resuming live system pid := ⟨kept.exact, kept.settled pid, shape⟩
    simp only [Action.program] at isProgram
    split at isProgram
    · cases isProgram
    · rename_i isPending
      cases isProgram
      exact (resuming.continueWrite_wp isPending).mono (fun _ _ done => ⟨_, done⟩)
        fun _ _ stops => Or.inl stops
    · rename_i isPending
      cases isProgram
      exact (resuming.continueExit_wp isPending).imp fun _ _ done => ⟨_, done⟩
  | evict blockno =>
    cases isProgram
    rw [wp_modify]
    exact ⟨_, kept.exact.evict shape blockno⟩

theorem next (stepped : step system action = .next after) :
    Kept after ∧ Advances live system.store after.store := by
  unfold step at stepped
  split at stepped
  · rename_i program isProgram
    have spec := kept.program_wp shape rooted isProgram
    rcases (wp_of_run (System.attempt_eq_next stepped)).mp spec with ⟨changed, done⟩
    exact ⟨⟨done.exact, done.settled kept.exact kept.settled⟩, done.advances⟩
  · cases stepped

/-- A step halts if something is exhausted, if the first process exits, or if
the directories are not in order. -/
theorem halted {reason : Panic} (halts : step system action = .halted reason) :
    Exhausted (.panic reason) ∨ reason = .initExiting ∨
      ¬ live ∧ (reason = .ilockNoType ∨ reason = .unlinkNlink) := by
  unfold step at halts
  split at halts
  · rename_i program isProgram
    have spec := kept.program_wp shape rooted isProgram
    rcases System.attempt_eq_halted halts with ⟨after, ran⟩
    rcases (wp_of_stop ran).mp spec with stops | ⟨isInit, _⟩
    · rcases stops.reason with exhausted | ⟨isReason, notLive⟩ | ⟨notLive, asleep | isReason⟩
      · exact Or.inl exhausted
      · cases isReason
        exact Or.inr (Or.inr ⟨notLive, Or.inl rfl⟩)
      · cases asleep
      · cases isReason
        exact Or.inr (Or.inr ⟨notLive, Or.inr rfl⟩)
    · cases isInit
      exact Or.inr (Or.inl rfl)
  · cases halts

end

theorem not_halted {reason : Panic} (kept : Kept system) (halts : step system action = .halted reason)
    (other : reason ∉ [Panic.ballocOutOfBlocks, .iallocNoInodes, .igetNoInodes, .dirlink,
      .initExiting, .ilockNoType, .unlinkNlink]) : False := by
  have reasons : _ ∨ _ ∨ ¬ False ∧ _ := kept.halted (fun impossible => impossible.elim)
    (fun impossible => impossible.elim) halts
  simp only [Exhausted, Stop.panic.injEq] at reasons
  simp only [List.mem_cons, List.not_mem_nil, or_false] at other
  tauto

end Kept

end

/-! ## The beginning -/

/-- An image is in order: the regions of the disk fit, every block has one
owner, files have no holes, directories consist of entries with numbers in
range, and what is in use has a link. -/
structure InOrder (store : Store) : Prop where
  layout : Layout store.sb
  owned : Owned store.sb store.volume
  holeFree : ∀ inum, (store.volume.dinodes inum).type ≠ 0 → HoleFree store.volume inum
  aligned : ∀ inum, (store.volume.dinodes inum).type = T_DIR →
    (store.volume.dinodes inum).size.toNat % direntSize = 0
  numbered : ∀ inum, (store.volume.dinodes inum).type = T_DIR →
    ∀ entry ∈ store.volume.entries inum, entry.inum < store.sb.ninodes
  linked : ∀ inum, (store.volume.dinodes inum).type ≠ 0 → (store.volume.dinodes inum).nlink ≠ 0
  root : (store.volume.dinodes ROOTINO).type = T_DIR

/-- The state after booting from an image: no file is open, there is no pipe,
and the processes work in the root directory, which is the only inode in the
cache. -/
structure Starting (system : System) : Prop where
  image : InOrder system.store
  written : ∀ b, system.store.stale b = none
  history : system.store.lookups = []
  unread : ∀ ip, (system.store.icache ip).valid = false ∧ (system.store.icache ip).locked = false
  counted : ∀ ip, (system.store.icache ip).ref = ∑ pid, (system.procs pid).worksIn ip
  home : ∃ root, (system.store.icache root).inum = ROOTINO ∧
    ∀ pid cwd, (system.procs pid).cwd = some cwd → cwd = root
  files : ∀ file, (system.ftable file).type = .none ∧ (system.ftable file).ref = 0 ∧
    (system.ftable file).off < 2 ^ 32
  slots : ∀ pid fd, (system.procs pid).ofile fd = none
  idle : ∀ pid, (system.procs pid).pending = .idle
  pipes : ∀ page, (system.pipes page).allocs = (system.pipes page).frees

namespace Starting

variable {system : System} (starting : Starting system)
include starting

theorem whole : Whole system.store := by
  have image := starting.image
  refine ⟨image.layout, image.owned, image.holeFree, ?_, image.aligned, image.numbered⟩
  intro b isStale
  exact absurd (starting.written b) isStale

theorem inum_root {ip : Index} (held : 0 < (system.store.icache ip).ref) :
    (∃ pid, (system.procs pid).cwd = some ip) ∧ (system.store.icache ip).inum = ROOTINO := by
  rw [starting.counted] at held
  rcases starting.home with ⟨root, isRoot, works⟩
  rcases System.exists_cwd held with ⟨pid, isCwd⟩
  refine ⟨⟨pid, isCwd⟩, ?_⟩
  rw [works pid ip isCwd, isRoot]

theorem consistent : Consistent system.store := by
  refine ⟨⟨starting.whole, ?_, ?_⟩, ?_⟩
  · intro ip
    have unread := starting.unread ip
    refine ⟨?_, fun _ => unread.2, ?_, ?_, ?_, ?_⟩
    · rw [starting.counted]
      exact Finset.sum_nonneg fun pid _ => Process.worksIn_nonneg _ ip
    · intro held
      rw [(starting.inum_root held).2]
      exact starting.image.layout.root
    · intro _ impossible
      rw [unread.1] at impossible
      cases impossible
    · intro _ impossible
      rw [unread.1] at impossible
      cases impossible
    · intro impossible
      rw [unread.2] at impossible
      cases impossible
  · intro ip other held heldOther _
    rcases starting.home with ⟨root, _, works⟩
    rcases (starting.inum_root held).1 with ⟨pid, isCwd⟩
    rcases (starting.inum_root heldOther).1 with ⟨pid', isCwd'⟩
    rw [works pid ip isCwd, works pid' other isCwd']
  · intro inum typed unlinked
    exact absurd unlinked (starting.image.linked inum typed)

theorem kept : Kept system := by
  have noDescriptors : ∀ file, system.descriptors file = 0 := by
    intro file
    rw [System.descriptors]
    apply Finset.sum_eq_zero
    intro pid _
    rw [Process.descriptors]
    apply Finset.sum_eq_zero
    intro fd _
    rw [starting.slots, points_none]
    rfl
  have noFiles : ∀ file, ¬ (system.ftable file).IsOpen := by
    intro file isOpen
    rw [File.IsOpen, (starting.files file).1] at isOpen
    rcases isOpen with impossible | impossible
    · cases impossible
    · cases impossible
  have noEnds : ∀ file, (system.ftable file).pipeEnd = none := by
    intro file
    rw [File.pipeEnd, (starting.files file).1]
    rfl
  have tabled : Tabled 0 system := by
    refine ⟨?_, ?_, fun file => (starting.files file).2.2⟩
    · intro file
      rw [(starting.files file).2.1, noDescriptors]
      rfl
    · intro file
      exact iff_of_true (starting.files file).1 (starting.files file).2.1
  have held : Held system := by
    refine ⟨starting.consistent, ?_, ?_, fun file isOpen => absurd isOpen (noFiles file), ?_⟩
    · funext ip
      exact (starting.unread ip).2
    · funext ip
      have none : ∑ file, (system.ftable file).opens ip = 0 := by
        apply Finset.sum_eq_zero
        intro file _
        rw [File.opens, if_neg fun opens => noFiles file opens.1]
      rw [Store.refs, starting.counted, System.users, none, zero_add]
    · intro pid cwd isCwd
      rcases starting.home with ⟨root, isRoot, works⟩
      rw [works pid cwd isCwd, isRoot]
      exact starting.image.root
  refine ⟨⟨tabled, held, ?_⟩, ?_⟩
  · intro page
    refine ⟨?_, ?_, Or.inl ⟨starting.pipes page, ?_⟩⟩
    · intro file readable writable isEnd
      rw [noEnds] at isEnd
      cases isEnd
    · intro file other readable writable isEnd
      rw [noEnds] at isEnd
      cases isEnd
    · intro file readable writable isEnd
      rw [noEnds] at isEnd
      cases isEnd
  · intro pid
    refine ⟨fun _ => ⟨starting.idle pid, starting.slots pid⟩, ?_, ?_⟩
    · intro file memory address n i isPending
      rw [starting.idle] at isPending
      cases isPending
    · intro count isPending
      rw [starting.idle] at isPending
      cases isPending

end Starting

variable {start final : System} {schedule : List Action}

/-- Every state of a run. -/
theorem Kept.run (kept : Kept start)
    (reached : exec step start schedule = .next final) : Kept final := by
  apply exec_invariant' Kept _ kept reached
  intro system action next still stepped
  have stepped' : Kept next ∧ Advances False system.store next.store :=
    still.next (fun impossible => impossible.elim) (fun impossible => impossible.elim) stepped
  exact stepped'.1

namespace Sample

theorem inOrder : InOrder store := by
  have checked : ∀ inum, inum < store.sb.ninodes →
      ((store.volume.dinodes inum).type = T_DIR →
        (store.volume.dinodes inum).size.toNat % direntSize = 0 ∧
        ∀ entry ∈ store.volume.entries inum, entry.inum < store.sb.ninodes) ∧
      ((store.volume.dinodes inum).type ≠ 0 → (store.volume.dinodes inum).nlink ≠ 0) := by
    decide +kernel
  have inRange : ∀ inum, (store.volume.dinodes inum).type ≠ 0 → inum < store.sb.ninodes := by
    intro inum typed
    refine Nat.lt_of_not_le fun beyond => typed ?_
    rw [Store.volume]
    exact congrArg Dinode.type (if_neg (Nat.not_lt_of_le beyond))
  have typed : ∀ inum, (store.volume.dinodes inum).type = T_DIR →
      (store.volume.dinodes inum).type ≠ 0 := by
    intro inum isDir
    rw [isDir]
    decide
  refine ⟨layout, owned, holeFree, ?_, ?_, ?_, by decide +kernel⟩
  · intro inum isDir
    exact ((checked inum (inRange inum (typed inum isDir))).1 isDir).1
  · intro inum isDir
    exact ((checked inum (inRange inum (typed inum isDir))).1 isDir).2
  · intro inum isTyped
    exact (checked inum (inRange inum isTyped)).2 isTyped

theorem starting : Starting system := by
  refine ⟨inOrder, fun _ => rfl, rfl, fun _ => ⟨rfl, rfl⟩, by decide +kernel, ⟨0, rfl, ?_⟩,
    fun _ => ⟨rfl, rfl, Nat.two_pow_pos 32⟩, fun _ _ => rfl, fun _ => rfl, fun _ => rfl⟩
  intro pid cwd isCwd
  rw [system] at isCwd
  dsimp only at isCwd
  split at isCwd
  · exact (Option.some.inj isCwd).symm
  · cases isCwd

end Sample

/-! ## Exact references -/

/-- An open file is connected to the page of a pipe. -/
def File.RefersTo (entry : File) (page : Nat) : Prop :=
  entry.type = .pipe ∧ entry.pipe = page

/-- A pipe has an end open exactly while a file refers to it.  Its page was
freed as often as it was allocated when both ends are closed, and once less
before. -/
def System.PipeExact (system : System) (page : Nat) : Prop :=
  (∀ file, (system.ftable file).RefersTo page →
    (system.ftable file).readable = !(system.ftable file).writable) ∧
  ((system.pipes page).allocs = (system.pipes page).frees ∧
      (∀ file, ¬ (system.ftable file).RefersTo page) ∨
    (system.pipes page).allocs = (system.pipes page).frees + 1 ∧
      ((system.pipes page).readopen = true ∨ (system.pipes page).writeopen = true) ∧
      ((system.pipes page).readopen = true ↔
        ∃ file, (system.ftable file).RefersTo page ∧ (system.ftable file).readable = true) ∧
      ((system.pipes page).writeopen = true ↔
        ∃ file, (system.ftable file).RefersTo page ∧ (system.ftable file).writable = true))

theorem File.pipeEnd_eq_some {entry : File} {page : Nat} {readable writable : Bool} :
    entry.pipeEnd = some (page, readable, writable) ↔
      entry.RefersTo page ∧ entry.readable = readable ∧ entry.writable = writable := by
  rw [File.pipeEnd, File.RefersTo]
  split
  · rename_i isPipe
    simp only [Option.some.injEq, Prod.mk.injEq, isPipe, true_and]
  · rename_i notPipe
    simp only [reduceCtorEq, notPipe, false_and]

theorem Exact.pipeExact {extra : FileIndex → Int} {system : System} (exact : Exact extra system)
    (page : Nat) : system.PipeExact page := by
  have plumbed := exact.pipes page
  have sided : ∀ file, (system.ftable file).RefersTo page →
      (system.ftable file).readable = !(system.ftable file).writable := fun file refers =>
    plumbed.sided file _ _ (File.pipeEnd_eq_some.mpr ⟨refers, rfl, rfl⟩)
  refine ⟨sided, ?_⟩
  rcases plumbed.state with ⟨free, unused⟩ | ⟨inUse, isOpen, file, readable, writable, isEnd⟩
  · refine Or.inl ⟨free, ?_⟩
    intro file refers
    exact unused file _ _ (File.pipeEnd_eq_some.mpr ⟨refers, rfl, rfl⟩)
  · have reads : (system.pipes page).readopen = true ↔
        ∃ file, (system.ftable file).RefersTo page ∧ (system.ftable file).readable = true := by
      rw [show (system.pipes page).readopen = (system.pipes page).isOpen false from rfl, isOpen]
      simp only [File.pipeEnd_eq_some, Bool.not_false]
      constructor
      · rintro ⟨file, refers, isReadable, _⟩
        exact ⟨file, refers, isReadable⟩
      · rintro ⟨file, refers, isReadable⟩
        have notWritable := sided file refers
        rw [isReadable] at notWritable
        exact ⟨file, refers, isReadable, by simpa using notWritable⟩
    have writes : (system.pipes page).writeopen = true ↔
        ∃ file, (system.ftable file).RefersTo page ∧ (system.ftable file).writable = true := by
      rw [show (system.pipes page).writeopen = (system.pipes page).isOpen true from rfl, isOpen]
      simp only [File.pipeEnd_eq_some, Bool.not_true]
      constructor
      · rintro ⟨file, refers, _, isWritable⟩
        exact ⟨file, refers, isWritable⟩
      · rintro ⟨file, refers, isWritable⟩
        have notReadable := sided file refers
        rw [isWritable] at notReadable
        exact ⟨file, refers, notReadable, isWritable⟩
    refine Or.inr ⟨inUse, ?_, reads, writes⟩
    rcases File.pipeEnd_eq_some.mp isEnd with ⟨refers, _, _⟩
    cases isWritable : (system.ftable file).writable with
    | true => exact Or.inr (writes.mpr ⟨file, refers, isWritable⟩)
    | false =>
      have isReadable := sided file refers
      rw [isWritable] at isReadable
      exact Or.inl (reads.mpr ⟨file, refers, isReadable⟩)

/-- References to files, inodes and pipes are counted exactly in every state
between steps, so the panics about counts are not reached. -/
theorem references_exact (starting : Starting start) (reached : exec step start schedule = .next final) :
    (∀ file, (final.ftable file).ref = final.descriptors file ∧
      ((final.ftable file).ref = 0 → (final.ftable file).type = .none)) ∧
    (∀ ip, (final.store.icache ip).ref = final.users ip) ∧
    (∀ page, final.PipeExact page) ∧
    ∀ action reason, step final action = .halted reason →
      reason ≠ .filedup ∧ reason ≠ .fileclose ∧ reason ≠ .ilock ∧ reason ≠ .iunlock := by
  have kept := starting.kept.run reached
  refine ⟨?_, fun ip => congrFun kept.exact.inodes ip, kept.exact.pipeExact, ?_⟩
  · intro file
    have counted := kept.exact.files file
    rw [Pi.zero_apply, add_zero] at counted
    exact ⟨counted, (kept.exact.closed file).mpr⟩
  · intro action reason halts
    refine ⟨?_, ?_, ?_, ?_⟩
    all_goals
      intro isReason
      subst isReason
      exact kept.not_halted halts (by decide)

/-- A file is shared by `dup` and `fork`, a pipe loses one end, and a process
goes elsewhere and exits. -/
def share : List Action :=
  [.call 0 (.open (some [102]) (O_CREATE ||| O_RDWR)), .call 0 (.dup 0),
   .call 0 (.pipe (some 5) true), .call 0 (.close 2), .call 0 (.fork 1),
   .call 1 (.chdir (some [97])), .call 0 (.close 0), .call 1 .exit, .resume 1]

theorem references_exact_share : ∃ final, exec step Sample.system share = .next final ∧
    (final.store.icache 0).ref = 1 ∧ (final.pipes 5).writeopen = true ∧
    (∀ file, (final.ftable file).ref = final.descriptors file) := by
  have ran : ∃ final, exec step Sample.system share = .next final ∧
      ((final.store.icache 0).ref = 1 ∧ (final.pipes 5).writeopen = true) := by
    decide +kernel
  rcases ran with ⟨final, reached, rootRef, isOpen⟩
  exact ⟨final, reached, rootRef, isOpen, fun file =>
    ((references_exact Sample.starting reached).1 file).1⟩

/-- Between steps no inode is locked, a copy in the cache that was read agrees
with the disk, no inode is cached twice, and an inode in use without any link
is that of an open file or of a working directory. -/
theorem unlinked_inodes_used (starting : Starting start)
    (reached : exec step start schedule = .next final) :
    (∀ ip, (final.store.icache ip).locked = false) ∧
    (∀ ip, 0 < final.users ip → (final.store.icache ip).valid = true →
      (final.store.icache ip).dinode =
        final.store.volume.dinodes (final.store.icache ip).inum) ∧
    (∀ ip other, 0 < final.users ip → 0 < final.users other →
      (final.store.icache ip).inum = (final.store.icache other).inum → ip = other) ∧
    ∀ inum, (final.store.volume.dinodes inum).type ≠ 0 →
      (final.store.volume.dinodes inum).nlink = 0 →
      ∃ ip, 0 < final.users ip ∧ (final.store.icache ip).inum = inum := by
  have exact := (starting.kept.run reached).exact
  have consistent := exact.consistent
  rw [← exact.inodes]
  refine ⟨congrFun exact.unlocked, fun ip => (consistent.agrees ip).coherent, consistent.single, ?_⟩
  intro inum typed unlinked
  rcases consistent.collected inum typed unlinked with ⟨ip, held, _, isInum⟩
  exact ⟨ip, held, isInum⟩

/-- A file is removed while it is open. -/
def unlinkOpen : List Action :=
  [.call 0 (.open (some [102]) (O_CREATE ||| O_RDWR)), .call 0 (.unlink (some [102]))]

theorem unlinked_inodes_used_unlinkOpen : ∃ final,
    exec step Sample.system unlinkOpen = .next final ∧
      ∃ ip, 0 < final.users ip ∧ (final.store.icache ip).inum = 4 := by
  have ran : ∃ final, exec step Sample.system unlinkOpen = .next final ∧
      (final.store.volume.dinodes 4).type ≠ 0 ∧ (final.store.volume.dinodes 4).nlink = 0 := by
    decide +kernel
  rcases ran with ⟨final, reached, typed, unlinked⟩
  exact ⟨final, reached, (unlinked_inodes_used Sample.starting reached).2.2.2 4 typed unlinked⟩

/-! ## Ownership of blocks -/

/-- A block behind the metadata is marked in the free map if and only if
exactly one inode in use holds it, in exactly one place. -/
theorem blocks_owned_once (starting : Starting start) (reached : exec step start schedule = .next final) :
    (∀ b, final.store.sb.nmeta ≤ b → b < final.store.sb.size →
      (bitSet (final.store.blocks (final.store.sb.BBLOCK b)) (b % BPB) = true ↔
        ∃! place : Place, (final.store.volume.dinodes place.1).type ≠ 0 ∧
          final.store.volume.held place = some b)) ∧
    (∀ place other b, final.store.volume.held place = some b →
      final.store.volume.held other = some b → place = other) ∧
    (∀ place b, final.store.volume.held place = some b →
      final.store.sb.nmeta ≤ b ∧ b < final.store.sb.size) ∧
    (∀ inum, (final.store.volume.dinodes inum).type = 0 →
      ∀ slot, final.store.volume.held (inum, slot) = none) ∧
    ∀ action, step final action ≠ .halted .freeingFreeBlock := by
  have kept := starting.kept.run reached
  have owned := kept.exact.consistent.whole.owned
  refine ⟨?_, owned.allocation.single, owned.allocation.inside, owned.free, ?_⟩
  · intro b behind inside
    have marked := owned.allocation.used_iff_existsUnique ⟨behind, inside⟩
    have bit : final.store.volume.used b =
        bitSet (final.store.blocks (final.store.sb.BBLOCK b)) (b % BPB) := by
      simp only [Store.volume, inside, decide_true, Bool.true_and]
    rw [← bit, marked]
    apply existsUnique_congr
    intro place
    constructor
    · intro holds
      refine ⟨fun free => ?_, holds⟩
      rw [owned.free place.1 free place.2] at holds
      cases holds
    · exact fun holds => holds.2
  · exact fun action halts => kept.not_halted halts (by decide)

theorem blocks_owned_once_share : ∃ final, exec step Sample.system share = .next final ∧
    (final.store.volume.held (4, some 0) = none ∧
      bitSet (final.store.blocks (final.store.sb.BBLOCK 34)) (34 % BPB) = true) ∧
    ∃! place : Place, (final.store.volume.dinodes place.1).type ≠ 0 ∧
      final.store.volume.held place = some 34 := by
  have ran : ∃ final, exec step Sample.system share = .next final ∧
      ((final.store.volume.held (4, some 0) = none ∧
        bitSet (final.store.blocks (final.store.sb.BBLOCK 34)) (34 % BPB) = true) ∧
        final.store.sb.nmeta ≤ 34 ∧ 34 < final.store.sb.size) := by
    decide +kernel
  rcases ran with ⟨final, reached, ⟨empty, marked⟩, behind, inside⟩
  exact ⟨final, reached, ⟨empty, marked⟩,
    ((blocks_owned_once Sample.starting reached).1 34 behind inside).mp marked⟩

/-! ## Holes -/

/-- No inode in use has a hole, so reading allocates nothing and `fileread`
needs no transaction. -/
theorem reads_no_hole (starting : Starting start) (reached : exec step start schedule = .next final) :
    (∀ inum, (final.store.volume.dinodes inum).type ≠ 0 →
      ∀ bn, bn < ((final.store.volume.dinodes inum).size.toNat + (BSIZE - 1)) / BSIZE →
        final.store.volume.address inum bn ≠ 0) ∧
    (∀ ip, 0 < (final.store.icache ip).ref →
      (final.store.volume.dinodes (final.store.icache ip).inum).type ≠ 0 →
      ∀ dst off n, off < 2 ^ 32 → n < 2 ^ 32 →
        Wp (readi ip dst off n) (final.store.locking ip)
          fun _ after => after = final.store.locking ip) ∧
    ∀ action, step final action ≠ .halted .logWriteOutsideOfTrans := by
  have kept := starting.kept.run reached
  refine ⟨?_, ?_, ?_⟩
  · intro inum typed bn below
    apply (kept.exact.consistent.whole.holeFree inum typed).mapped
    unfold BSIZE at below ⊢
    omega
  · intro ip held typed dst off n offFits nFits
    exact (kept.exact.consistent.locking held typed).readi_wp (Store.refs_locking_pos held)
      Store.locks_locking_self dst offFits nFits
  · exact fun action halts => kept.not_halted halts (by decide)

/-- A file of two blocks is written through one descriptor and read through
another. -/
def readBack : List Action :=
  [.call 0 (.open (some [102]) (O_CREATE ||| O_RDWR)), .call 0 (.open (some [102]) O_RDONLY),
   .call 0 (.write 0 (fun _ => some fun _ => 65) 0 1500), .resume 0, .resume 0,
   .call 0 (.read 1 (fun _ => some fun _ => 0) 0 1500)]

theorem reads_no_hole_readBack : ∃ final, exec step Sample.system readBack = .next final ∧
    (final.store.volume.dinodes 4).size = 1500 ∧ final.store.volume.address 4 1 ≠ 0 := by
  have ran : ∃ final, exec step Sample.system readBack = .next final ∧
      ((final.store.volume.dinodes 4).size = 1500 ∧ (final.store.volume.dinodes 4).type ≠ 0) := by
    decide +kernel
  rcases ran with ⟨final, reached, isSize, typed⟩
  have mapped := (reads_no_hole Sample.starting reached).1 4 typed 1
  rw [isSize] at mapped
  exact ⟨final, reached, isSize, mapped (by decide)⟩

end Fs
end Xv6
