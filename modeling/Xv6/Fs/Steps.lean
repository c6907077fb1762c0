import Xv6.Fs.Sessions

namespace Xv6
namespace Fs

open Foundation Function Store Fs.System
open Buffer (Block Pid Stop)

/-!
# Reading, writing, `fork` and `exit`

The remaining steps.  `fileread` runs outside of a transaction and may do so,
because `readi` of an inode without holes allocates nothing.  `filewrite` and
`exit` consist of several transactions, between which other processes run.
-/

variable {extra : FileIndex → Int} {off address fd count : Nat} {n : Int}
  {stops : Stop → System → Prop} {memory : UserMemory} {file : FileIndex}

section

variable {live : Prop} {system : System} {pid : Pid} {cwd : Index}

/-! ## Reading -/

theorem Exact.relock (exact : Exact 0 system)
    (isOpen : (system.ftable file).IsOpen) (shape : live → Shaped system.store) :
    Ends live live system.store.refs system.store
      ((system.store.locking (system.ftable file).ip).unlocking (system.ftable file).ip)
      system.store.refs fun _ => false := by
  have held := exact.refs_pos isOpen
  have left : Left live _ _ _ _ :=
    exact.consistent.relocked held exact.unlocked (exact.opened file isOpen).1
  exact Ends.of_passes left.passes left.consistent left.refs left.locks
    fun isLive => (shape isLive).1

theorem Exact.ilock_wp (exact : Exact 0 system) (isOpen : (system.ftable file).IsOpen) :
    Wp (ilock (system.ftable file).ip) system.store
      fun _ after => after = system.store.locking (system.ftable file).ip := by
  have held := exact.refs_pos isOpen
  have unlocked : system.store.locks (system.ftable file).ip = false := by
    rw [exact.unlocked]
  refine (Fs.ilock_wp exact.consistent.toIntact held unlocked).mono ?_ ?_
  · rintro _ after ⟨isAfter, _⟩
    exact isAfter
  · rintro stop after ⟨_, _, free⟩
    exact (exact.opened file isOpen).1 free

theorem Exact.seek (exact : Exact extra system) (file : FileIndex) (small : off < 2 ^ 32) :
    Exact extra (system.withFile file { system.ftable file with off := off }) := by
  have moved := exact.recount file { system.ftable file with off := off } rfl small
    (exact.closed file)
  dsimp only at moved
  rw [sub_self, Pi.single_zero, add_zero] at moved
  exact moved

theorem Stays.seek (system : System) (file : FileIndex) {store : Store} :
    Stays system ((system.withFile file { system.ftable file with off := off }).withStore
      store) := by
  apply Stays.of_others file
  · exact fun other different => ftable_withFile_of_ne different
  · refine Or.inl ?_
    show ((system.withFile file _).ftable file).kind = _
    rw [ftable_withFile_self]
    rfl

theorem wp_fileread (isInode : (system.ftable file).type = .inode)
    (isReadable : (system.ftable file).readable = true)
    {returns : Int × UserMemory → System → Prop} {stops : Stop → System → Prop} :
    Wp (fileread file memory address n) system returns stops ↔ Wp (do
      onStore (ilock (system.ftable file).ip)
      let off := ((← get).ftable file).off
      let read ← onStore (readi (system.ftable file).ip (.user memory address) off
        (n % 2 ^ 32).toNat)
      advance file read.1
      onStore (iunlock (system.ftable file).ip)
      return ((read.1 : Int), memory.write address read.2)) system returns stops := by
  have accepted : ¬ (system.ftable file).readable = false := by
    rw [isReadable]
    exact Bool.false_ne_true.symm
  rw [fileread, wp_bind, wp_get, if_neg accepted]
  simp only [isInode]

/-- `fileread` locks the inode, reads, moves the offset behind what it has read,
and unlocks the inode. -/
theorem Exact.fileread_of_readi (exact : Exact 0 system)
    (isInode : (system.ftable file).type = .inode) (isReadable : (system.ftable file).readable = true)
    {post : Nat × List UInt8 → Prop}
    (reads : Wp (readi (system.ftable file).ip (.user memory address) (system.ftable file).off
        (n % 2 ^ 32).toNat) (system.store.locking (system.ftable file).ip)
      fun result after => after = system.store.locking (system.ftable file).ip ∧ post result) :
    Wp (fileread file memory address n) system
      fun result after => ∃ read, post read ∧ result = (↑read.1, memory.write address read.2) ∧
        after = (system.withFile file { system.ftable file with
          off := ((system.ftable file).off + read.1) % 2 ^ 32 }).withStore
            ((system.store.locking (system.ftable file).ip).unlocking (system.ftable file).ip) := by
  have isOpen : (system.ftable file).IsOpen := Or.inl isInode
  have held := exact.refs_pos isOpen
  have unlocking : ∀ (current : System) (read : Nat × List UInt8),
      current.store = system.store.locking (system.ftable file).ip →
      Wp (do
        onStore (iunlock (system.ftable file).ip)
        return ((read.1 : Int), memory.write address read.2)) current
        fun result after => result = (↑read.1, memory.write address read.2) ∧
          after = current.withStore
            ((system.store.locking (system.ftable file).ip).unlocking (system.ftable file).ip) := by
    intro current read isStore
    rw [wp_bind, wp_onStore, isStore]
    apply (iunlock_wp (refs_locking_pos held) locks_locking_self).imp
    intro _ unlocked isUnlocked
    rw [wp_pure, isUnlocked]
    exact ⟨rfl, rfl⟩
  rw [wp_fileread isInode isReadable, wp_bind, wp_onStore]
  apply (exact.ilock_wp isOpen).imp
  intro _ locked isStore
  subst isStore
  rw [wp_bind, wp_get, wp_bind, wp_onStore]
  apply reads.imp
  rintro read same ⟨rfl, holds⟩
  rw [wp_bind, advance, wp_ite]
  by_cases moves : (read.1 : Int) > 0
  · rw [if_pos moves, wp_setFile]
    apply (unlocking _ read rfl).imp
    rintro result after ⟨rfl, rfl⟩
    exact ⟨read, holds, rfl, rfl⟩
  · rw [if_neg moves, wp_pure]
    apply (unlocking _ read rfl).imp
    rintro result after ⟨rfl, rfl⟩
    have stays : ((system.ftable file).off + read.1) % 2 ^ 32 = (system.ftable file).off := by
      rw [show read.1 = 0 by omega, Nat.add_zero]
      exact Nat.mod_eq_of_lt (exact.offsets file)
    refine ⟨read, holds, rfl, ?_⟩
    rw [stays, System.withFile, update_eq_self]
    rfl

theorem Exact.withPending (exact : Exact extra system) (pid : Pid) (pending : Pending) :
    Exact extra (system.withProcess pid { system.procs pid with pending := pending }) := by
  have tabled := exact.toTabled.withProcess pid { system.procs pid with pending := pending }
  have same : Process.descriptors { system.procs pid with pending := pending } =
    (system.procs pid).descriptors := rfl
  rw [same, add_sub_cancel_right] at tabled
  exact ⟨tabled, exact.toHeld.withProcess pid _ rfl, exact.pipes⟩

theorem SettledAt.of_writing {i : Nat} {fd : Fin NOFILE} (works : (system.procs pid).cwd ≠ none)
    (isFile : (system.procs pid).ofile fd = some file)
    (isInode : (system.ftable file).type = .inode)
    (writable : (system.ftable file).writable = true) :
    SettledAt (system.withProcess pid { system.procs pid with
      pending := .writing file memory address n i }) pid := by
  constructor
  · rw [procs_withProcess_self]
    exact fun none => absurd none works
  · intro other memory' address' n' i' isPending
    rw [procs_withProcess_self] at isPending ⊢
    cases isPending
    exact ⟨⟨fd, isFile⟩, isInode, writable⟩
  · intro count isPending
    rw [procs_withProcess_self] at isPending
    cases isPending

theorem SettledAt.of_exiting (works : (system.procs pid).cwd ≠ none)
    (closed : ∀ fd, fd.val < count → (system.procs pid).ofile fd = none) :
    SettledAt (system.withProcess pid { system.procs pid with pending := .exiting count })
      pid := by
  constructor
  · rw [procs_withProcess_self]
    exact fun none => absurd none works
  · intro file memory address n i isPending
    rw [procs_withProcess_self] at isPending
    cases isPending
  · intro count' isPending
    rw [procs_withProcess_self] at isPending ⊢
    cases isPending
    exact closed

theorem Done.withPending {current : System} {pending : Pending} (exact : Exact 0 current)
    (others : ∀ other, other ≠ pid → current.procs other = system.procs other)
    (stays : Stays system current) (advances : Advances live system.store current.store)
    (settled : SettledAt (current.withProcess pid { current.procs pid with pending := pending })
      pid) :
    Done live (· = pid) system
      (current.withProcess pid { current.procs pid with pending := pending }) := by
  refine ⟨exact.withPending pid pending, ?_, ?_, stays, advances⟩
  · intro other different
    rw [procs_withProcess_of_ne different, others other different]
  · intro other isPid
    rw [isPid]
    exact settled

namespace Calling

/-- A call that has used an open file, and has perhaps moved its offset. -/
theorem used {after : Store} (calling : Calling live system pid cwd) (small : off < 2 ^ 32)
    (ends : Ends live live system.store.refs system.store after) :
    Done live (· = pid) system
      ((system.withFile file { system.ftable file with off := off }).withStore after) := by
  refine ⟨(calling.exact.seek file small).withStore ends, fun _ _ => rfl, ?_,
    Stays.seek system file, ends.advances⟩
  intro other isPid
  rw [isPid]
  exact SettledAt.of_idle calling.works calling.pending

variable (calling : Calling live system pid cwd)
include calling

theorem fileread_wp (isInode : (system.ftable file).type = .inode)
    (isReadable : (system.ftable file).readable = true) :
    Wp (fileread file memory address n) system (fun _ => Done live (· = pid) system) stops := by
  have exact := calling.exact
  have isOpen : (system.ftable file).IsOpen := Or.inl isInode
  have ends : Ends live live _ _ _ _ _ := exact.relock isOpen calling.shape
  have held := exact.refs_pos isOpen
  have consistent := exact.consistent.locking held (exact.opened file isOpen).1
  have reads := (consistent.readi_wp (refs_locking_pos held) locks_locking_self
    (.user memory address) (exact.offsets file) (by omega : (n % 2 ^ 32).toNat < 2 ^ 32)).imp
      fun _ _ same => And.intro same trivial
  refine (exact.fileread_of_readi isInode isReadable reads).total ?_
  rintro result after ⟨read, _, _, isAfter⟩
  rw [isAfter]
  exact calling.used (Nat.mod_lt _ (by decide)) ends

theorem sysRead_wp :
    Wp (sysRead pid fd memory address n) system (fun _ => Done live (· = pid) system) stops := by
  rw [sysRead, wp_bind, wp_get]
  cases isFound : argfd (system.procs pid) fd with
  | none => exact calling.unchanged
  | some found =>
    rcases found with ⟨slot, file⟩
    have typed := calling.exact.type_ne_none (calling.exact.ref_pos (argfd_eq_some isFound))
    dsimp only
    rw [wp_bind]
    cases isReadable : (system.ftable file).readable with
    | false =>
      simp only [fileread, wp_bind, wp_get, isReadable, if_true, wp_pure]
      exact calling.rests
    | true =>
      cases isType : (system.ftable file).type with
      | none => exact absurd isType typed
      | pipe | device =>
        simp only [fileread, wp_bind, wp_get, isReadable, Bool.true_eq_false, if_false, isType,
          wp_pure]
        exact calling.rests
      | inode =>
        apply (calling.fileread_wp isType isReadable).imp
        intro result after done
        rw [wp_pure]
        exact done

theorem sysFstat_wp : Wp (sysFstat pid fd) system (fun _ => Done live (· = pid) system) stops := by
  have stat : ∀ file, (system.ftable file).IsOpen →
      Wp (do
        onStore (ilock (system.ftable file).ip)
        onStore (iunlock (system.ftable file).ip)
        return (0 : Int)) system (fun _ => Done live (· = pid) system) stops := by
    intro file isOpen
    have held := refs_locking_pos (calling.exact.refs_pos isOpen)
    rw [wp_bind, wp_onStore]
    refine (calling.exact.ilock_wp isOpen).total ?_
    intro _ locked isStore
    subst isStore
    rw [wp_bind, wp_onStore]
    refine (iunlock_wp held locks_locking_self).total ?_
    intro _ unlocked isUnlocked
    rw [wp_pure, isUnlocked]
    exact calling.stored (calling.exact.relock isOpen calling.shape)
  rw [sysFstat, wp_bind, wp_get]
  cases isFound : argfd (system.procs pid) fd with
  | none => exact calling.unchanged
  | some found =>
    rcases found with ⟨slot, file⟩
    dsimp only
    cases isType : (system.ftable file).type with
    | none | pipe => exact calling.unchanged
    | inode => exact stat file (Or.inl isType)
    | device => exact stat file (Or.inr isType)

theorem sysWrite_wp :
    Wp (sysWrite pid fd memory address n) system (fun _ => Done live (· = pid) system) stops := by
  rw [sysWrite, wp_bind, wp_get]
  cases isFound : argfd (system.procs pid) fd with
  | none => exact calling.unchanged
  | some found =>
    rcases found with ⟨slot, file⟩
    have isFile := argfd_eq_some isFound
    have typed := calling.exact.type_ne_none (calling.exact.ref_pos isFile)
    dsimp only
    rw [wp_ite]
    by_cases readOnly : (system.ftable file).writable = false
    · rw [if_pos readOnly]
      exact calling.unchanged
    · rw [if_neg readOnly]
      cases isType : (system.ftable file).type with
      | none => exact absurd isType typed
      | pipe | device => exact calling.unchanged
      | inode =>
        have writable : (system.ftable file).writable = true := by
          rw [← Bool.not_eq_false]
          exact readOnly
        rw [wp_bind, wp_setProcess, wp_pure]
        apply Done.withPending calling.exact (fun _ _ => rfl) (Stays.refl system)
          (Advances.refl calling.shape)
        exact SettledAt.of_writing calling.works isFile isType writable

theorem exit_wp (notInit : pid ≠ 0) :
    Wp (Call.run pid cwd .exit) system (fun _ => Done live (· = pid) system) stops := by
  rw [Call.run, wp_ite, if_neg notInit, wp_setProcess]
  apply Done.withPending calling.exact (fun _ _ => rfl) (Stays.refl system)
    (Advances.refl calling.shape)
  apply SettledAt.of_exiting calling.works
  exact fun fd below => absurd below (Nat.not_lt_zero _)

end Calling

/-! ## `fork` -/

/-- The state of `fork` in its loop over the descriptors. -/
structure Forking (system current : System) (pid child : Pid) (left : List (Fin NOFILE)) :
    Prop where
  exact : Exact 0 current
  store : current.store = system.store
  procs : ∀ other, other ≠ child → current.procs other = system.procs other
  self : ∃ ofile, current.procs child = { system.procs child with ofile := ofile } ∧
    ∀ fd ∈ left, ofile fd = none
  kinds : ∀ file, (current.ftable file).kind = (system.ftable file).kind

namespace Forking

variable {current : System} {child : Pid} {fd : Fin NOFILE} {left : List (Fin NOFILE)}

theorem forkFile_wp (forking : Forking system current pid child (fd :: left))
    (distinct : (fd :: left).Nodup) (different : pid ≠ child) :
    Wp (forkFile (system.procs pid) child fd) current
      (fun _ after => Forking system after pid child left) stops := by
  rcases forking.self with ⟨ofile, own, empty⟩
  unfold forkFile
  cases isFile : (system.procs pid).ofile fd with
  | none =>
    rw [wp_pure]
    exact ⟨forking.exact, forking.store, forking.procs,
      ⟨ofile, own, fun other member => empty other (List.mem_cons_of_mem fd member)⟩,
      forking.kinds⟩
  | some file =>
    have isFileStill : (current.procs pid).ofile fd = some file := by
      rw [forking.procs pid different, isFile]
    have counted := forking.exact.ref_pos isFileStill
    have typed := forking.exact.type_ne_none counted
    have recounted := forking.exact.recount file
      { current.ftable file with ref := (current.ftable file).ref + 1 } rfl
      (forking.exact.offsets file) (iff_of_false typed (by dsimp only; omega))
    dsimp only at recounted
    rw [add_sub_cancel_left, zero_add] at recounted
    have pointed := recounted.withFd child fd (some file)
    have noSlot : ((current.withFile file
        { current.ftable file with ref := (current.ftable file).ref + 1 }).procs child).ofile fd =
        none := by
      show (current.procs child).ofile fd = none
      rw [own]
      exact empty fd List.mem_cons_self
    rw [noSlot, points_none, points_some_eq, add_zero, sub_self] at pointed
    simp only [filedup, wp_bind, wp_get, wp_ite]
    rw [if_neg (by omega), wp_setFile, wp_setFd]
    refine ⟨pointed, forking.store, ?_, ?_, ?_⟩
    · intro other notChild
      rw [System.withFd, procs_withProcess_of_ne notChild]
      exact forking.procs other notChild
    · refine ⟨update ofile fd (some file), ?_, ?_⟩
      · rw [procs_withFd_self]
        show { current.procs child with
          ofile := update (current.procs child).ofile fd (some file) } = _
        rw [own]
      · intro other member
        have notFd : other ≠ fd := fun same => (List.nodup_cons.mp distinct).1 (same ▸ member)
        rw [update_of_ne notFd]
        exact empty other (List.mem_cons_of_mem fd member)
    · intro other
      show ((current.withFile file _).ftable other).kind = _
      by_cases same : other = file
      · subst same
        rw [ftable_withFile_self, ← forking.kinds]
        rfl
      · rw [ftable_withFile_of_ne same, forking.kinds]

theorem forkFiles_wp (forking : Forking system current pid child left) (distinct : left.Nodup)
    (different : pid ≠ child) :
    Wp (forkFiles (system.procs pid) child left) current
      (fun _ after => Forking system after pid child []) stops := by
  induction left generalizing current with
  | nil =>
    rw [forkFiles, wp_pure]
    exact forking
  | cons fd rest ih =>
    rw [forkFiles]
    refine (forking.forkFile_wp distinct different).seq ?_
    intro _ middle further
    exact ih further (List.nodup_cons.mp distinct).2

end Forking

theorem Calling.sysFork_wp (calling : Calling live system pid cwd) {child : Pid}
    (settled : SettledAt system child) (free : (system.procs child).cwd = none) :
    Wp (sysFork pid cwd child) system (fun _ => Done live (· = child) system) stops := by
  have different : pid ≠ child := by
    intro same
    rw [← same] at free
    exact calling.works free
  have forking : Forking system system pid child (List.finRange NOFILE) :=
    ⟨calling.exact, rfl, fun _ _ => rfl,
      ⟨(system.procs child).ofile, rfl, fun fd _ => (settled.idle free).2 fd⟩, fun _ => rfl⟩
  rw [sysFork, wp_bind, wp_get]
  refine (forking.forkFiles_wp (List.nodup_finRange NOFILE) different).seq ?_
  intro _ current forked
  rcases forked.self with ⟨ofile, own, _⟩
  have exact := forked.exact
  have held : 0 < current.store.refs cwd := by
    rw [forked.store, calling.exact.inodes]
    exact users_pos_of_cwd calling.isCwd
  have nowhere : (current.nowhere child).users = current.store.refs := by
    have same : { current.procs child with cwd := none } = current.procs child := by
      rw [own, ← free]
    rw [System.nowhere, same, withProcess_self, exact.inodes]
  have users := current.users_somewhere child { current.procs child with cwd := some cwd } rfl
  rw [wp_bind, wp_onStore]
  have dups : Wp (idup cwd) current.store
      fun _ after => Left live (current.store.refs + Pi.single cwd 1) current.store after
        current.store.locks := exact.consistent.idup_wp held
  refine dups.total ?_
  intro _ after left
  have tree : live → Tree current.store.sb.ninodes current.store.nodes := by
    rw [forked.store]
    exact fun isLive => (calling.shape isLive).1
  have ends : Ends live live (current.nowhere child).users current.store after
      (current.withProcess child { current.procs child with cwd := some cwd }).users := by
    rw [users, nowhere]
    refine Ends.of_passes ?_ left.consistent left.refs (left.locks.trans exact.unlocked) tree
    exact left.passes.mono fun other positive => add_single_pos_of_pos cwd positive
  rw [wp_setProcess]
  refine ⟨exact.relocate rfl ends ?_, ?_, ?_, ?_, ?_⟩
  · intro new isNew
    cases isNew
    have isDir := exact.cwds pid cwd (by rw [forked.procs pid different, calling.isCwd])
    have kept := left.passes.kept cwd (add_single_pos_of_pos cwd held)
    rw [left.passes.inum cwd (add_single_pos_of_pos cwd held), kept, isDir]
  · intro other notChild
    show (current.withProcess child _).procs other = _
    rw [procs_withProcess_of_ne notChild, forked.procs other notChild]
  · intro other isChild
    subst isChild
    apply SettledAt.of_idle
    · show ((current.withProcess other _).procs other).cwd ≠ none
      rw [procs_withProcess_self]
      exact Option.some_ne_none cwd
    · show ((current.withProcess other _).procs other).pending = .idle
      rw [procs_withProcess_self]
      show (current.procs other).pending = .idle
      rw [own]
      exact (settled.idle free).1
  · exact fun file => Or.inl (forked.kinds file)
  · rw [← forked.store]
    exact ends.advances

/-! ## Calls that go on -/

/-- One round of the loop in `filewrite`: the offset moves behind what `writei`
has written, then the lock goes and the transaction ends. -/
theorem Exact.filewriteChunk_of_writei {n1 : Nat}
    (exact : Exact 0 system) (isOpen : (system.ftable file).IsOpen) {post : Int → Store → Prop}
    {stops : Stop → Store → Prop}
    (writes : Wp (writei (system.ftable file).ip (.user memory address) (system.ftable file).off n1)
      (Store.locking { system.store with inOp := true } (system.ftable file).ip)
      (fun written after => 0 < after.refs (system.ftable file).ip ∧
        after.locks (system.ftable file).ip = true ∧ post written after) stops) :
    Wp (filewriteChunk file memory address n1) system
      (fun written final => ∃ after, post written after ∧
        final = (system.withFile file { system.ftable file with
          off := ((system.ftable file).off + written.toNat) % 2 ^ 32 }).withStore
            { after.unlocking (system.ftable file).ip with inOp := false, logged := [] })
      fun stop after => stops stop after.store := by
  have typed := (exact.opened file isOpen).1
  have start : Consistent { system.store with inOp := true } := exact.consistent.unread
  have unlocked : system.store.locks (system.ftable file).ip = false := by
    rw [exact.unlocked]
  rw [filewriteChunk, wp_bind, wp_onStore, wp_beginOp, wp_bind, wp_get, wp_bind, wp_onStore]
  refine (Fs.ilock_wp start.toIntact (exact.refs_pos isOpen) unlocked).mono ?_ ?_
  · rintro _ locked ⟨isLocked, _⟩
    rw [isLocked, wp_bind, wp_get, wp_bind, wp_onStore]
    apply writes.imp
    rintro written after ⟨heldAfter, lockedAfter, holds⟩
    have ending : ∀ current : System, current.store = after →
        Wp (do
          onStore (iunlock (system.ftable file).ip)
          onStore endOp
          return written) current
          (fun result final => result = written ∧ final = current.withStore
            { after.unlocking (system.ftable file).ip with inOp := false, logged := [] })
          fun stop after => stops stop after.store := by
      intro current isStore
      rw [wp_bind, wp_onStore, isStore]
      refine (iunlock_wp heldAfter lockedAfter).total ?_
      intro _ unlocking isUnlocking
      rw [wp_bind, wp_onStore, wp_endOp, wp_pure, isUnlocking]
      exact ⟨rfl, rfl⟩
    rw [wp_bind, advance, wp_ite]
    by_cases moves : written > 0
    · rw [if_pos moves, wp_setFile]
      apply (ending _ rfl).imp
      rintro result final ⟨rfl, rfl⟩
      exact ⟨after, holds, rfl⟩
    · rw [if_neg moves, wp_pure]
      apply (ending _ rfl).imp
      rintro result final ⟨rfl, rfl⟩
      have stays : ((system.ftable file).off + result.toNat) % 2 ^ 32 = (system.ftable file).off := by
        rw [Int.toNat_of_nonpos (Int.not_lt.mp moves), Nat.add_zero]
        exact Nat.mod_eq_of_lt (exact.offsets file)
      refine ⟨after, holds, ?_⟩
      rw [stays, System.withFile, update_eq_self]
      rfl
  · rintro stop after ⟨_, _, free⟩
    exact absurd free typed

theorem Exact.writei_wp {n1 : Nat}
    (exact : Exact 0 system) (isInode : (system.ftable file).type = .inode)
    (writable : (system.ftable file).writable = true) (small : n1 < 2 ^ 32)
    (shape : live → Shaped system.store) :
    Wp (writei (system.ftable file).ip (.user memory address) (system.ftable file).off n1)
      (Store.locking { system.store with inOp := true } (system.ftable file).ip)
      (fun written after => 0 < after.refs (system.ftable file).ip ∧
        after.locks (system.ftable file).ip = true ∧ (written = -1 ∨ written = n1) ∧
        Ends live live system.store.refs system.store
          { after.unlocking (system.ftable file).ip with inOp := false, logged := [] })
      fun stop after => Stops live live system.store stop after := by
  have isOpen : (system.ftable file).IsOpen := Or.inl isInode
  have suits := exact.opened file isOpen
  have held := exact.refs_pos isOpen
  have unlocked : system.store.locks (system.ftable file).ip = false := by
    rw [exact.unlocked]
  have start : Consistent { system.store with inOp := true } := exact.consistent.unread
  obtain ⟨ip, isIp⟩ : ∃ ip, ip = (system.ftable file).ip := ⟨_, rfl⟩
  rw [← isIp] at held unlocked ⊢
  rw [File.Suits, ← isIp] at suits
  have consistent : Consistent (Store.locking { system.store with inOp := true } ip) :=
    start.locking held suits.1
  have heldLocked : 0 < (Store.locking { system.store with inOp := true } ip).refs ip :=
    refs_locking_pos held
  have isFile : ((Store.locking { system.store with inOp := true } ip).nodes
      ((Store.locking { system.store with inOp := true } ip).icache ip).inum).type ≠ T_DIR := by
    rw [inum_locking]
    exact suits.2 writable
  refine (consistent.writei_wp live heldLocked locks_locking_self rfl isFile (.user memory address)
    (exact.offsets file) small).mono ?_ ?_
  · rintro written after ⟨value, left⟩
    have heldAfter : 0 < after.refs ip := by
      rw [left.refs]
      exact heldLocked
    have lockedAfter : after.locks ip = true := by
      rw [left.locks]
      exact locks_locking_self
    have refs : (after.unlocking ip).refs = system.store.refs := by
      rw [refs_unlocking, left.refs, refs_locking]
      rfl
    have passes : Passes live system.store.refs { system.store with inOp := true }
        (after.unlocking ip) := by
      have middle := left.passes
      rw [refs_locking] at middle
      exact ((Passes.locking _ ip).trans middle).trans (Passes.unlocking after ip)
    have ends : Ends live live system.store.refs { system.store with inOp := true }
        (after.unlocking ip) := by
      apply Ends.of_passes passes (left.consistent.unlocking heldAfter) refs _
        fun isLive => (shape isLive).1
      rw [locks_unlocking, left.locks, locks_locking, update_idem,
        update_eq_self_iff.mpr unlocked.symm]
      exact exact.unlocked
    exact ⟨heldAfter, lockedAfter, value, ends.begun.committed⟩
  · rintro stop after ⟨exhausted, lookups⟩
    exact Stops.exhausted exhausted (Followed.of_eq lookups)

/-- A process in the middle of a call. -/
structure Resuming (live : Prop) (system : System) (pid : Pid) : Prop where
  exact : Exact 0 system
  settled : SettledAt system pid
  shape : live → Shaped system.store

namespace Resuming

variable (resuming : Resuming live system pid)
include resuming

/-- A call that goes on has not given up the working directory. -/
theorem works (pending : (system.procs pid).pending ≠ .idle) : (system.procs pid).cwd ≠ none :=
  fun nowhere => pending (resuming.settled.idle nowhere).1

theorem continueWrite_wp {i : Nat}
    (pending : (system.procs pid).pending = .writing file memory address n i) :
    Wp (continueWrite pid file memory address n i) system (fun _ => Done live (· = pid) system)
      fun stop after => Stops live live system.store stop after.store := by
  rcases resuming.settled.writing file memory address n i pending with
    ⟨⟨fd, isFile⟩, isInode, writable⟩
  have works := resuming.works (by rw [pending]; exact Pending.noConfusion)
  rw [continueWrite, wp_ite]
  by_cases more : (i : Int) < n
  · rw [if_pos more, wp_bind]
    have small : min (n - i).toNat maxChunk < 2 ^ 32 :=
      lt_of_le_of_lt (Nat.min_le_right _ _) (by decide)
    refine (resuming.exact.filewriteChunk_of_writei (Or.inl isInode)
      (resuming.exact.writei_wp isInode writable small resuming.shape)).imp ?_
    rintro written after ⟨store, ⟨value, ends⟩, isAfter⟩
    have exact : Exact 0 after := by
      rw [isAfter]
      exact (resuming.exact.seek file (Nat.mod_lt _ (by decide))).withStore ends
    have procs : after.procs = system.procs := by
      rw [isAfter]
      rfl
    have stays : Stays system after := by
      rw [isAfter]
      exact Stays.seek system file
    have advances : Advances live system.store after.store := by
      rw [isAfter]
      exact ends.advances
    have kind : (after.ftable file).kind = (system.ftable file).kind := by
      rw [isAfter]
      show ((system.withFile file _).ftable file).kind = _
      rw [ftable_withFile_self]
      rfl
    have worksAfter : (after.procs pid).cwd ≠ none := by
      rw [procs]
      exact works
    rcases value with failed | complete
    · rw [wp_ite, if_pos (by omega), wp_setProcess]
      apply Done.withPending exact (fun other _ => congrFun procs other) stays advances
      apply SettledAt.of_idle
      · rw [procs_withProcess_self]
        exact worksAfter
      · rw [procs_withProcess_self]
    · rw [wp_ite, if_neg (by omega), wp_ite, if_neg (not_not_intro complete), wp_setProcess]
      apply Done.withPending exact (fun other _ => congrFun procs other) stays advances
      simp only [File.kind, Prod.mk.injEq] at kind
      apply SettledAt.of_writing worksAfter
      · rw [procs]
        exact isFile
      · rw [kind.1]
        exact isInode
      · rw [kind.2.2.1]
        exact writable
  · rw [if_neg more, wp_setProcess]
    apply Done.withPending resuming.exact (fun _ _ => rfl) (Stays.refl system)
      (Advances.refl resuming.shape)
    apply SettledAt.of_idle
    · rw [procs_withProcess_self]
      exact works
    · rw [procs_withProcess_self]

theorem exitFile_wp (fd : Fin NOFILE) :
    Wp (exitFile pid fd) system
      (fun _ after => Exact 0 after ∧ Stays system after ∧ Advances live system.store after.store ∧
        (∀ other, other ≠ pid → after.procs other = system.procs other) ∧
        after.procs pid = { system.procs pid with
          ofile := update (system.procs pid).ofile fd none })
      stops := by
  rw [exitFile, wp_bind, wp_get]
  cases isFile : (system.procs pid).ofile fd with
  | none =>
    rw [wp_pure]
    refine ⟨resuming.exact, Stays.refl system, Advances.refl resuming.shape, fun _ _ => rfl, ?_⟩
    rw [← isFile, update_eq_self]
  | some file =>
    have counted := resuming.exact.ref_pos isFile
    dsimp only
    rw [wp_bind]
    refine (resuming.exact.fileclose_wp live counted resuming.shape).total ?_
    intro _ after closes
    rw [wp_setFd]
    have exact := closes.exact.withFd pid fd none
    rw [closes.procs, isFile, points_none, points_some_eq, sub_zero, zero_sub,
      neg_add_cancel] at exact
    refine ⟨exact, ?_, closes.advances, ?_, ?_⟩
    · apply Stays.of_others file closes.others
      rcases closes.self with kind | closed
      · exact Or.inl kind
      · exact Or.inr (Or.inl closed)
    · intro other different
      rw [System.withFd, procs_withProcess_of_ne different, closes.procs]
    · rw [System.withFd, procs_withProcess_self, closes.procs]

theorem continueExit_wp (pending : (system.procs pid).pending = .exiting count) :
    Wp (continueExit pid count) system (fun _ => Done live (· = pid) system)
      stops := by
  have works := resuming.works (by rw [pending]; exact Pending.noConfusion)
  have closed := resuming.settled.exiting count pending
  rw [continueExit]
  by_cases inside : count < NOFILE
  · rw [dif_pos inside]
    refine (resuming.exitFile_wp ⟨count, inside⟩).seq ?_
    rintro _ after ⟨exact, stays, advances, others, own⟩
    rw [wp_setProcess]
    apply Done.withPending exact others stays advances
    apply SettledAt.of_exiting
    · rw [own]
      exact works
    · intro fd below
      rw [own]
      by_cases isLast : fd = ⟨count, inside⟩
      · rw [isLast]
        exact update_self ..
      · dsimp only
        rw [update_of_ne isLast]
        have different : fd.val ≠ count := fun same => isLast (Fin.ext same)
        exact closed fd (by omega)
  · rw [dif_neg inside, wp_bind, exitCwd, wp_bind, wp_get]
    cases isCwd : (system.procs pid).cwd with
    | none => exact absurd isCwd works
    | some cwd =>
      have users := system.users_somewhere pid _ isCwd
      rw [withProcess_self] at users
      have refs : system.store.refs = (system.nowhere pid).users + Pi.single cwd 1 := by
        rw [resuming.exact.inodes, users]
      have starts : Starts live system.store cwd := by
        refine ⟨resuming.exact.consistent, resuming.exact.unlocked, ?_, resuming.shape⟩
        rw [resuming.exact.inodes]
        exact users_pos_of_cwd isCwd
      have closing := starts.closeInode_wp refs users_nonneg
      rw [closeInode, wp_bind, wp_beginOp, wp_bind] at closing
      dsimp only
      rw [wp_bind, wp_onStore, wp_beginOp, wp_bind, wp_onStore]
      refine closing.total ?_
      intro _ after ends
      rw [wp_endOp] at ends
      rw [wp_onStore, wp_endOp, wp_setProcess]
      have gone := system.users_nowhere pid
        { system.procs pid with cwd := none, pending := .idle } rfl
      have empty : ∀ fd, (system.procs pid).ofile fd = none := by
        intro fd
        have below := fd.isLt
        exact closed fd (by omega)
      have advances := ends.advances
      nth_rewrite 2 [← gone] at ends
      have sameFiles : Process.ofile { system.procs pid with cwd := none, pending := .idle } =
        (system.procs pid).ofile := rfl
      have left := resuming.exact.relocate sameFiles ends fun _ impossible =>
        absurd impossible (Option.some_ne_none _).symm
      refine ⟨left, ?_, ?_, Stays.refl system, advances⟩
      · exact fun other different => procs_withProcess_of_ne different
      · intro other isPid
        subst isPid
        constructor
        · rw [procs_withProcess_self]
          exact fun _ => ⟨rfl, empty⟩
        · intro file memory address n i isPending
          rw [procs_withProcess_self] at isPending
          cases isPending
        · intro count' isPending
          rw [procs_withProcess_self] at isPending
          cases isPending

end Resuming

end

end Fs
end Xv6
