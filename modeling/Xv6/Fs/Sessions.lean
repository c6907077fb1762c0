import Xv6.Fs.References

namespace Xv6
namespace Fs

open Foundation Function Fs.System
open Buffer (Block Pid Stop)

/-!
# Steps of the system

Every step of the system, the first transaction of a call or a later one, keeps
the counts exact.  A process that is in the middle of `write` still has the
descriptor, so that the file is open while others go on; a slot without a
process has no descriptors.
-/

/-! ## Processes between steps -/

/-- What is known of a process between two steps. -/
structure SettledAt (system : System) (pid : Pid) : Prop where
  idle : (system.procs pid).cwd = none →
    (system.procs pid).pending = .idle ∧ ∀ fd, (system.procs pid).ofile fd = none
  writing : ∀ file memory address n i,
    (system.procs pid).pending = .writing file memory address n i →
      (∃ fd, (system.procs pid).ofile fd = some file) ∧ (system.ftable file).type = .inode ∧
        (system.ftable file).writable = true
  exiting : ∀ count, (system.procs pid).pending = .exiting count →
    ∀ fd, fd.val < count → (system.procs pid).ofile fd = none

/-- What a step may do to the files: a file that was open is the same, or is
closed. -/
def Stays (system after : System) : Prop :=
  ∀ file, (after.ftable file).kind = (system.ftable file).kind ∨ (after.ftable file).ref = 0 ∨
    (system.ftable file).ref = 0

/-- A step of some processes. -/
structure Done (live : Prop) (changed : Pid → Prop) (system after : System) : Prop where
  exact : Exact 0 after
  others : ∀ other, ¬ changed other → after.procs other = system.procs other
  self : ∀ other, changed other → SettledAt after other
  stays : Stays system after
  advances : Advances live system.store after.store

section

variable {live : Prop} {changed : Pid → Prop} {system after : System} {pid : Pid} {fd : Fin NOFILE}
  {file : FileIndex}

theorem SettledAt.of_idle (works : (system.procs pid).cwd ≠ none)
    (pending : (system.procs pid).pending = .idle) : SettledAt system pid := by
  refine ⟨fun none => absurd none works, ?_, ?_⟩
  · intro file memory address n i isPending
    rw [pending] at isPending
    cases isPending
  · intro count isPending
    rw [pending] at isPending
    cases isPending

theorem Exact.ref_pos (exact : Exact 0 system) (isFile : (system.procs pid).ofile fd = some file) :
    1 ≤ (system.ftable file).ref := by
  rw [exact.files file]
  have positive := descriptors_pos isFile
  exact Int.add_le_add positive (Int.le_refl 0)

/-- The processes that take no part in a step. -/
theorem Done.settled (done : Done live changed system after) (exact : Exact 0 system)
    (settled : ∀ pid, SettledAt system pid) (pid : Pid) : SettledAt after pid := by
  by_cases isChanged : changed pid
  · exact done.self pid isChanged
  · have same := done.others pid isChanged
    refine ⟨?_, ?_, ?_⟩
    · rw [same]
      exact (settled pid).idle
    · intro file memory address n i isPending
      rw [same] at isPending
      rcases (settled pid).writing file memory address n i isPending with
        ⟨⟨fd, isFile⟩, type, writable⟩
      have isFileStill : (after.procs pid).ofile fd = some file := by
        rw [same]
        exact isFile
      have before := exact.ref_pos isFile
      have behind := done.exact.ref_pos isFileStill
      rcases done.stays file with kind | closed | wasClosed
      · simp only [File.kind, Prod.mk.injEq] at kind
        exact ⟨⟨fd, isFileStill⟩, by rw [kind.1, type], by rw [kind.2.2.1, writable]⟩
      · omega
      · omega
    · rw [same]
      exact (settled pid).exiting

theorem Stays.refl (system : System) : Stays system system :=
  fun _ => Or.inl rfl

theorem Stays.of_others (file : FileIndex)
    (others : ∀ other, other ≠ file → after.ftable other = system.ftable other)
    (self : (after.ftable file).kind = (system.ftable file).kind ∨ (after.ftable file).ref = 0 ∨
      (system.ftable file).ref = 0) : Stays system after := by
  intro other
  by_cases same : other = file
  · rw [same]
    exact self
  · exact Or.inl (by rw [others other same])

end

/-! ## Calls without the file table -/

/-- A process with a working directory may make a call. -/
structure Calling (live : Prop) (system : System) (pid : Pid) (cwd : Index) : Prop where
  exact : Exact 0 system
  isCwd : (system.procs pid).cwd = some cwd
  pending : (system.procs pid).pending = .idle
  shape : live → Shaped system.store

variable {after middle : Store} {ip : Index} {extra : FileIndex → Int} {process : Process}
  {path : Option Path} {file : FileIndex} {stops : Stop → System → Prop} {omode : Nat}
  {fd : Fin NOFILE} {slot : Option FileIndex}

section

variable {live : Prop} {system : System} {pid : Pid} {cwd : Index}

namespace Calling

variable (calling : Calling live system pid cwd)
include calling

theorem starts : Starts live system.store cwd := by
  refine ⟨calling.exact.consistent, calling.exact.unlocked, ?_, calling.shape⟩
  rw [calling.exact.inodes]
  exact users_pos_of_cwd calling.isCwd

theorem works : (system.procs pid).cwd ≠ none := by
  rw [calling.isCwd]
  exact Option.some_ne_none cwd

theorem settled : SettledAt system pid :=
  SettledAt.of_idle calling.works calling.pending

/-- A step that changes the store only. -/
theorem stored (ends : Ends live live system.store.refs system.store after) :
    Done live (· = pid) system (system.withStore after) := by
  refine ⟨calling.exact.withStore ends, fun _ _ => rfl, ?_, Stays.refl system, ends.advances⟩
  intro other isPid
  rw [isPid]
  exact ⟨calling.settled.idle, calling.settled.writing, calling.settled.exiting⟩

theorem rests : Done live (· = pid) system system := by
  refine ⟨calling.exact, fun _ _ => rfl, ?_, Stays.refl system, Advances.refl calling.shape⟩
  intro other isPid
  rw [isPid]
  exact calling.settled

/-- A call returns before it has changed anything. -/
theorem unchanged {α : Type} {value : α} :
    Wp (pure value) system (fun _ => Done live (· = pid) system) stops := by
  rw [wp_pure]
  exact calling.rests

theorem onStore_wp {α : Type} {program : Kernel α} (spec : Wp program system.store
      (fun _ after => Ends live live system.store.refs system.store after) (Stops live live system.store)) :
    Wp (onStore program) system (fun _ => Done live (· = pid) system)
      fun stop after => Stops live live system.store stop after.store := by
  rw [wp_onStore]
  refine spec.mono ?_ fun _ _ stops => stops
  intro _ after ends
  exact calling.stored ends

end Calling

/-! ## Working directories -/

section

variable (system : System) (pid : Pid)

/-- The system without the working directory of a process. -/
def System.nowhere : System :=
  system.withProcess pid { system.procs pid with cwd := none }

theorem System.users_somewhere (process : Process) (isCwd : process.cwd = some ip) :
    (system.withProcess pid process).users = (system.nowhere pid).users + Pi.single ip 1 := by
  funext other
  have trade := system.users_withProcess pid process other
  have removed := system.users_withProcess pid { system.procs pid with cwd := none } other
  have nowhere : Process.worksIn { system.procs pid with cwd := none } other = 0 := rfl
  have here : process.worksIn other = (Pi.single ip 1 : Index → Int) other := by
    rw [Process.worksIn, isCwd]
    by_cases same : other = ip
    · rw [same, if_pos rfl, Pi.single_eq_same]
    · rw [if_neg fun isIp => same (Option.some.inj isIp).symm, Pi.single_eq_of_ne same]
  rw [Pi.add_apply, ← here, System.nowhere]
  omega

theorem System.users_nowhere (process : Process) (nowhere : process.cwd = none) :
    (system.withProcess pid process).users = (system.nowhere pid).users := by
  funext other
  have trade := system.users_withProcess pid process other
  have removed := system.users_withProcess pid { system.procs pid with cwd := none } other
  have none : Process.worksIn { system.procs pid with cwd := none } other = 0 := rfl
  have here : process.worksIn other = 0 := by
    rw [Process.worksIn, nowhere]
    rfl
  rw [System.nowhere]
  omega

end

theorem System.withProcess_self : system.withProcess pid (system.procs pid) = system := by
  rw [System.withProcess, update_eq_self]

theorem Exact.relocate
    (exact : Exact extra system) (sameFiles : process.ofile = (system.procs pid).ofile)
    (ends : Ends live live (system.nowhere pid).users system.store after
      (system.withProcess pid process).users)
    (isDir : ∀ new, process.cwd = some new → (after.nodes (after.icache new).inum).type = T_DIR) :
    Exact extra ((system.withProcess pid process).withStore after) := by
  have tabled := exact.toTabled.withProcess pid process
  have same : (system.procs pid).descriptors = process.descriptors := by
    funext file
    rw [Process.descriptors, Process.descriptors, sameFiles]
  rw [same, add_sub_cancel_right] at tabled
  refine ⟨{ tabled with }, exact.toHeld.settle ends ?_ ?_, exact.pipes⟩
  · exact fun file _ => Or.inl ⟨rfl, rfl⟩
  · intro other cwd isCwd
    by_cases isPid : other = pid
    · subst isPid
      rw [procs_withProcess_self] at isCwd
      exact Or.inr (isDir cwd isCwd)
    · rw [procs_withProcess_of_ne isPid] at isCwd
      refine Or.inl ⟨?_, isCwd⟩
      rw [System.nowhere, procs_withProcess_of_ne isPid]
      exact isCwd

namespace Calling

theorem refs_nowhere (calling : Calling live system pid cwd) :
    system.store.refs = (system.nowhere pid).users + Pi.single cwd 1 := by
  have users := system.users_somewhere pid _ calling.isCwd
  rw [withProcess_self] at users
  rw [calling.exact.inodes, users]

theorem chdir_wp (calling : Calling live system pid cwd) (nonzero : ∀ path' ∈ path, 0 ∉ path')
    (rooted : live → ∀ path' ∈ path, Rooted system.store cwd path') :
    Wp (Call.run pid cwd (.chdir path)) system (fun _ => Done live (· = pid) system)
      fun stop after => Stops live live system.store stop after.store := by
  rw [Call.run, wp_bind, wp_onStore]
  refine (calling.starts.sysChdir_wp calling.refs_nowhere users_nonneg nonzero
    rooted).mono ?_ fun _ _ stops => stops
  intro result after moved
  cases result with
  | none =>
    rw [wp_pure]
    exact calling.stored moved
  | some new =>
    rw [wp_setProcess]
    rcases moved with ⟨ends, isDir⟩
    have users := system.users_somewhere pid { system.procs pid with cwd := some new } rfl
    rw [← users] at ends
    refine ⟨calling.exact.relocate rfl ends ?_, ?_, ?_, Stays.refl system, ends.advances⟩
    · intro other isNew
      cases isNew
      exact isDir
    · exact fun other different => procs_withProcess_of_ne different
    · intro other isPid
      subst isPid
      apply SettledAt.of_idle
      · rw [procs_withProcess_self]
        exact Option.some_ne_none new
      · rw [procs_withProcess_self]
        exact calling.pending

end Calling

/-! ## Opening -/

/-- A new file, which has no descriptor yet, on an inode that was opened. -/
theorem Exact.open {entry : File}
    (exact : Exact extra system) (free : (system.ftable file).ref = 0) (isOpen : entry.IsOpen)
    (once : entry.ref = 1) (offset : entry.off < 2 ^ 32) (suits : entry.Suits after)
    (ends : Ends live live system.store.refs system.store after
      (system.store.refs + Pi.single entry.ip 1)) :
    Exact (extra + Pi.single file 1) ((system.withFile file entry).withStore after) := by
  have closed := (exact.closed file).mpr free
  have notNone : entry.type ≠ .none := by
    intro impossible
    rcases isOpen with isInode | isDevice
    · rw [impossible] at isInode
      cases isInode
    · rw [impossible] at isDevice
      cases isDevice
  have users : (system.withFile file entry).users = system.users + Pi.single entry.ip 1 := by
    funext ip
    have trade := system.users_withFile file entry ip
    have before : (system.ftable file).opens ip = 0 := by
      rw [File.opens, closed, if_neg]
      rintro ⟨impossible | impossible, _⟩
      · cases impossible
      · cases impossible
    have own : entry.opens ip = (Pi.single entry.ip 1 : Index → Int) ip := by
      rw [File.opens]
      by_cases same : ip = entry.ip
      · rw [if_pos ⟨isOpen, same.symm⟩, same, Pi.single_eq_same]
      · rw [if_neg fun both => same both.2.symm, Pi.single_eq_of_ne same]
    rw [Pi.add_apply]
    omega
  have tabled := exact.toTabled.withFile file entry
    (iff_of_false notNone (by rw [once]; decide)) offset
  rw [free, once, sub_zero] at tabled
  rw [exact.inodes, ← users] at ends
  refine ⟨{ tabled with }, exact.toHeld.settle ends ?_ ?_, ?_⟩
  · intro other _
    by_cases isFile : other = file
    · subst isFile
      rw [ftable_withFile_self]
      exact Or.inr suits
    · exact Or.inl ⟨rfl, ftable_withFile_of_ne isFile⟩
  · exact fun other cwd isCwd => Or.inl ⟨isCwd, isCwd⟩
  · intro page
    have noEnd : entry.pipeEnd = (system.ftable file).pipeEnd := by
      rw [File.pipeEnd, File.pipeEnd, closed, if_neg, if_neg]
      · intro impossible
        cases impossible
      · intro isPipe
        rcases isOpen with isInode | isDevice
        · rw [isPipe] at isInode
          cases isInode
        · rw [isPipe] at isDevice
          cases isDevice
    show Plumbed (fun other => ((system.withFile file entry).ftable other).pipeEnd) page _
    rw [pipeEnd_withFile, noEnd, update_eq_self]
    exact exact.pipes page

theorem openFile_eq (inode : Inode) (ip : Index) (omode : Nat) (entry : File) :
    (openFile inode ip omode entry).ip = ip ∧ (openFile inode ip omode entry).ref = entry.ref ∧
      (openFile inode ip omode entry).IsOpen ∧
      ((openFile inode ip omode entry).writable = true → omode ≠ O_RDONLY) ∧
      (entry.off < 2 ^ 32 → (openFile inode ip omode entry).off < 2 ^ 32) := by
  have writes : decide (omode &&& O_WRONLY ≠ 0 ∨ omode &&& O_RDWR ≠ 0) = true →
      omode ≠ O_RDONLY := by
    intro isWritable readOnly
    rw [readOnly] at isWritable
    exact absurd isWritable (by decide)
  unfold openFile
  by_cases isDevice : inode.dinode.type = T_DEVICE
  · rw [if_pos isDevice]
    exact ⟨rfl, rfl, Or.inr rfl, writes, fun small => small⟩
  · rw [if_neg isDevice]
    exact ⟨rfl, rfl, Or.inl rfl, writes, fun _ => (by decide : 0 < 2 ^ 32)⟩

theorem fileclose_unused_wp {returns : PUnit → System → Prop} (free : (system.ftable file).ref = 0)
    (closed : (system.ftable file).type = .none) (next : returns ⟨⟩ system) :
    Wp (fileclose file) (system.withFile file { system.ftable file with ref := 1 }) returns
      stops := by
  have back : ∀ entry, (system.withFile file entry).withFile file (system.ftable file) =
      system := by
    intro entry
    rw [System.withFile, System.withFile, update_idem, update_eq_self]
  have cleared : { system.ftable file with ref := 0, type := .none } = system.ftable file := by
    rw [← free, ← closed]
  simp only [fileclose, wp_bind, wp_get, wp_ite, ftable_withFile_self]
  rw [if_neg (by decide), if_neg (by decide), wp_setFile, ftable_withFile_self]
  dsimp only
  rw [cleared, back, closed, wp_pure]
  exact next

namespace Calling

section

variable (calling : Calling live system pid cwd)
  (opened : Opened live system.store omode (some ip) middle)
include calling opened

theorem openBad_wp :
    Wp (onStore (openBad ip)) (system.withStore middle) (fun _ => Done live (· = pid) system)
      fun stop after => Stops live live system.store stop after.store := by
  rw [wp_onStore]
  refine (opened.openBad_wp calling.exact.consistent.toIntact).imp ?_
  intro _ after ends
  exact calling.stored ends

theorem opened_wp
    (free : (system.ftable file).ref = 0) (empty : (system.procs pid).ofile fd = none) :
    Wp (do
      setFile file (openFile (middle.icache ip) ip omode)
      onStore (openTruncate ip omode)
      return (fd.val : Int))
      (((system.withStore middle).withFile file { system.ftable file with ref := 1 }).withFd pid fd
        (some file))
      (fun _ => Done live (· = pid) system)
      fun stop after => Stops live live system.store stop after.store := by
  rcases openFile_eq (middle.icache ip) ip omode { system.ftable file with ref := 1 } with
    ⟨isIp, once, isOpen, writes, offset⟩
  rw [wp_bind, wp_setFile, wp_bind, wp_onStore]
  refine (opened.openTruncate_wp calling.exact.consistent.toIntact).total ?_
  rintro _ after ⟨ends, type⟩
  rw [wp_pure]
  generalize isEntry : openFile (middle.icache ip) ip omode { system.ftable file with ref := 1 } =
    entry at isIp once isOpen writes offset
  have final : { (((system.withStore middle).withFile file
        { system.ftable file with ref := 1 }).withFd pid fd (some file)).withFile file
        (openFile (middle.icache ip) ip omode
          ((((system.withStore middle).withFile file
            { system.ftable file with ref := 1 }).withFd pid fd (some file)).ftable file))
        with store := after } =
      ((system.withFile file entry).withStore after).withFd pid fd (some file) := by
    have table : (((system.withStore middle).withFile file
        { system.ftable file with ref := 1 }).withFd pid fd (some file)).ftable file =
        { system.ftable file with ref := 1 } := ftable_withFile_self
    rw [table, isEntry]
    simp only [System.withFile, System.withFd, System.withProcess, System.withStore, update_idem]
  rw [final]
  have suits : entry.Suits after := by
    rw [File.Suits, isIp, type]
    exact ⟨opened.typed ip rfl, fun isWritable => opened.kind ip rfl (writes isWritable)⟩
  rw [← isIp] at ends
  have added := calling.exact.open free isOpen once (offset (calling.exact.offsets file)) suits ends
  have exact := added.withFd pid fd (some file)
  have noSlot : ((((system.withFile file entry).withStore after).procs pid).ofile fd) = none :=
    empty
  have settles : 0 + Pi.single file 1 + points none - points (some file) =
      (0 : FileIndex → Int) := by
    funext other
    simp only [Pi.add_apply, Pi.sub_apply, points_some, Pi.zero_apply]
    rw [points, if_neg (by rintro ⟨⟩)]
    omega
  rw [noSlot, settles] at exact
  refine ⟨exact, ?_, ?_, ?_, ends.advances⟩
  · exact fun other different => procs_withProcess_of_ne different
  · intro other isPid
    subst isPid
    apply SettledAt.of_idle
    · rw [System.withFd, procs_withProcess_self]
      exact calling.works
    · rw [System.withFd, procs_withProcess_self]
      exact calling.pending
  · exact Stays.of_others file (fun other different => ftable_withFile_of_ne different)
      (Or.inr (Or.inr free))

end

theorem sysOpen_wp (calling : Calling live system pid cwd) (nonzero : ∀ path' ∈ path, 0 ∉ path')
    (rooted : live → ∀ path' ∈ path, Rooted system.store cwd path') :
    Wp (sysOpen pid cwd path omode) system (fun _ => Done live (· = pid) system)
      fun stop after => Stops live live system.store stop after.store := by
  unfold sysOpen
  cases path with
  | none => exact calling.unchanged
  | some path =>
    dsimp only
    rw [wp_bind, wp_onStore, wp_beginOp, wp_bind, wp_onStore]
    refine (calling.starts.openInode_wp (nonzero path rfl)
      fun isLive => rooted isLive path rfl).mono ?_ fun _ _ stops => stops
    intro result middle opened
    cases result with
    | none =>
      rw [wp_bind, wp_onStore, wp_endOp, wp_pure]
      apply calling.stored
      have ends := opened.ends.committed
      rw [Option.elim_none, add_zero] at ends
      exact ends
    | some ip =>
      show Wp (openFound pid ip omode) (system.withStore middle) _ _
      simp only [openFound, wp_bind, wp_get, wp_ite]
      split
      · exact calling.openBad_wp opened
      · apply filealloc_wp
        · exact calling.openBad_wp opened
        · intro file free
          rw [wp_bind]
          apply fdalloc_wp
          · rw [wp_bind]
            apply fileclose_unused_wp free ((calling.exact.closed file).mpr free)
            exact calling.openBad_wp opened
          · intro fd empty
            exact calling.opened_wp opened free empty

end Calling

/-! ## Descriptors -/

theorem argfd_eq_some {fd : Nat} {slot : Fin NOFILE}
    (found : argfd process fd = some (slot, file)) : process.ofile slot = some file := by
  unfold argfd at found
  split at found
  · rcases Option.map_eq_some_iff.mp found with ⟨other, isFile, same⟩
    cases same
    exact isFile
  · cases found

theorem System.procs_withFd_self :
    (system.withFd pid fd slot).procs pid = { system.procs pid with
      ofile := update (system.procs pid).ofile fd slot } :=
  procs_withProcess_self

theorem System.ofile_withFd_self : ((system.withFd pid fd slot).procs pid).ofile fd = slot := by
  rw [procs_withFd_self]
  exact update_self _ _ _

theorem System.ofile_withFd_of_ne {other : Fin NOFILE} (different : other ≠ fd) :
    ((system.withFd pid fd slot).procs pid).ofile other = (system.procs pid).ofile other := by
  rw [procs_withFd_self]
  exact update_of_ne different _ _

theorem points_none : points none = 0 := by
  funext file
  rw [points, if_neg fun impossible => nomatch impossible]
  rfl

theorem points_some_eq (file : FileIndex) : points (some file) = Pi.single file 1 := by
  funext other
  exact points_some file other

namespace Calling

variable (calling : Calling live system pid cwd)
include calling

/-- A step that leaves the store, and of the processes the working directories
and what they are doing. -/
theorem done {after : System} (exact : Exact 0 after) (store : after.store = system.store)
    (others : ∀ other, other ≠ pid → after.procs other = system.procs other)
    (self : ∃ ofile, after.procs pid = { system.procs pid with ofile := ofile })
    (stays : Stays system after) : Done live (· = pid) system after := by
  refine ⟨exact, others, ?_, stays, ?_⟩
  · intro other isPid
    rcases self with ⟨ofile, own⟩
    rw [isPid]
    apply SettledAt.of_idle
    · rw [own]
      exact calling.works
    · rw [own]
      exact calling.pending
  · rw [store]
    exact Advances.refl calling.shape

theorem sysDup_wp (fd : Nat) :
    Wp (sysDup pid fd) system (fun _ => Done live (· = pid) system) stops := by
  rw [sysDup, wp_bind, wp_get]
  cases isFound : argfd (system.procs pid) fd with
  | none => exact calling.unchanged
  | some found =>
    rcases found with ⟨slot, file⟩
    have counted := calling.exact.ref_pos (argfd_eq_some isFound)
    dsimp only
    rw [wp_bind]
    apply fdalloc_wp
    · exact calling.unchanged
    · intro new empty
      have pointed := calling.exact.withFd pid new (some file)
      rw [empty, points_none, points_some_eq, add_zero, zero_sub] at pointed
      have typed := calling.exact.type_ne_none counted
      have positive : ¬ ((system.withFd pid new (some file)).ftable file).ref < 1 :=
        Int.not_lt.mpr counted
      simp only [filedup, wp_bind, wp_get, wp_ite]
      rw [if_neg positive, wp_setFile, wp_pure]
      have recounted := pointed.recount file
        { (system.withFd pid new (some file)).ftable file with
          ref := ((system.withFd pid new (some file)).ftable file).ref + 1 } rfl
        (calling.exact.offsets file) (iff_of_false typed ?_)
      · dsimp only at recounted
        rw [add_sub_cancel_left, neg_add_cancel] at recounted
        apply calling.done recounted rfl
        · exact fun other different => procs_withProcess_of_ne different
        · exact ⟨_, procs_withFd_self⟩
        · apply Stays.of_others file
          · exact fun other different => ftable_withFile_of_ne different
          · rw [ftable_withFile_self]
            exact Or.inl rfl
      · dsimp only
        have isCounted : 1 ≤ ((system.withFd pid new (some file)).ftable file).ref := counted
        omega

theorem sysClose_wp (fd : Nat) :
    Wp (sysClose pid fd) system (fun _ => Done live (· = pid) system) stops := by
  rw [sysClose, wp_bind, wp_get]
  cases isFound : argfd (system.procs pid) fd with
  | none => exact calling.unchanged
  | some found =>
    rcases found with ⟨slot, file⟩
    have isFile := argfd_eq_some isFound
    have counted := calling.exact.ref_pos isFile
    have cleared := calling.exact.withFd pid slot none
    rw [isFile, points_none, points_some_eq, zero_add, sub_zero] at cleared
    dsimp only
    rw [wp_bind, wp_setFd, wp_bind]
    refine (cleared.fileclose_wp live counted calling.shape).total ?_
    intro _ after closes
    rw [wp_pure]
    have exact := closes.exact
    rw [sub_self] at exact
    refine ⟨exact, ?_, ?_, ?_, closes.advances⟩
    · intro other different
      rw [closes.procs]
      exact procs_withProcess_of_ne different
    · intro other isPid
      subst isPid
      have own : after.procs other = { system.procs other with
          ofile := update (system.procs other).ofile slot none } := by
        rw [closes.procs]
        exact procs_withProcess_self
      apply SettledAt.of_idle
      · rw [own]
        exact calling.works
      · rw [own]
        exact calling.pending
    · apply Stays.of_others file closes.others
      rcases closes.self with kind | closed
      · exact Or.inl kind
      · exact Or.inr (Or.inl closed)

end Calling

/-! ## Pipes -/

section

variable {f0 f1 : FileIndex} {page : Nat}

theorem System.withFile_comm {e0 e1 : File} (different : f0 ≠ f1) :
    (system.withFile f0 e0).withFile f1 e1 = (system.withFile f1 e1).withFile f0 e0 := by
  rw [System.withFile, System.withFile, System.withFile, System.withFile, update_comm different]

/-- The system after `pipealloc`. -/
def System.withPipe (system : System) (f0 f1 : FileIndex) (page : Nat) : System :=
  { (system.withFile f0 (pipeFile page false { system.ftable f0 with ref := 1 })).withFile f1
      (pipeFile page true { system.ftable f1 with ref := 1 }) with
    pipes := update system.pipes page (system.pipes page).kalloc }

theorem Tabled.addPipe (tabled : Tabled extra system) (page : Nat)
    (writable : Bool) (free : (system.ftable file).ref = 0) :
    Tabled (extra + Pi.single file 1)
      (system.withFile file (pipeFile page writable { system.ftable file with ref := 1 })) := by
  have added := tabled.withFile file (pipeFile page writable { system.ftable file with ref := 1 })
    (iff_of_false (fun impossible => nomatch impossible) (by decide : (1 : Int) ≠ 0))
    (tabled.offsets file)
  have one : (pipeFile page writable { system.ftable file with ref := 1 }).ref -
      (system.ftable file).ref = 1 := by
    rw [free]
    rfl
  rw [one] at added
  exact added

theorem Held.addPipe (held : Held system) (page : Nat) (writable : Bool)
    (closed : (system.ftable file).type = .none) :
    Held (system.withFile file (pipeFile page writable { system.ftable file with ref := 1 })) := by
  apply held.withFile
  · intro ip
    rw [File.opens, File.opens, closed]
    rfl
  · rintro (impossible | impossible)
    · cases impossible
    · cases impossible

theorem Exact.addPipe (exact : Exact extra system) (different : f0 ≠ f1)
    (free0 : (system.ftable f0).ref = 0) (free1 : (system.ftable f1).ref = 0)
    (isFree : (system.pipes page).allocs = (system.pipes page).frees) :
    Exact (extra + Pi.single f0 1 + Pi.single f1 1) (system.withPipe f0 f1 page) := by
  have closed0 := (exact.closed f0).mpr free0
  have closed1 := (exact.closed f1).mpr free1
  have isF1 : (system.withFile f0 (pipeFile page false { system.ftable f0 with ref := 1 })).ftable
      f1 = system.ftable f1 := ftable_withFile_of_ne different.symm
  have tabled := (exact.toTabled.addPipe page false free0).addPipe page true (by rw [isF1, free1])
  have held := (exact.toHeld.addPipe page false closed0).addPipe page true (by rw [isF1, closed1])
  rw [isF1] at tabled held
  refine ⟨{ tabled with }, { held with }, ?_⟩
  intro other
  have ends : (fun file => ((system.withPipe f0 f1 page).ftable file).pipeEnd) =
      update (update (fun file => (system.ftable file).pipeEnd) f0
        (some (page, true, false))) f1 (some (page, false, true)) := by
    have second := pipeEnd_withFile
      (system.withFile f0 (pipeFile page false { system.ftable f0 with ref := 1 })) f1
      (pipeFile page true { system.ftable f1 with ref := 1 })
    have first := pipeEnd_withFile system f0
      (pipeFile page false { system.ftable f0 with ref := 1 })
    rw [first] at second
    exact second
  rw [ends]
  by_cases isPage : other = page
  · subst isPage
    show Plumbed _ other (update system.pipes other _ other)
    rw [update_self]
    exact (exact.pipes other).connect isFree different
  · show Plumbed _ other (update system.pipes page _ other)
    rw [update_of_ne isPage]
    have elsewhere : ∀ readable writable r w : Bool,
        some (page, r, w) ≠ some (other, readable, writable) := by
      intro readable writable r w same
      cases same
      exact isPage rfl
    have noEnd : ∀ file, (system.ftable file).type = .none → ∀ readable writable,
        (system.ftable file).pipeEnd ≠ some (other, readable, writable) := by
      intro file closed readable writable
      rw [File.pipeEnd, closed, if_neg (by rintro ⟨⟩)]
      rintro ⟨⟩
    have first := (exact.pipes other).elsewhere (noEnd f0 closed0)
      (fun readable writable => elsewhere readable writable true false)
    apply first.elsewhere
    · rw [update_of_ne different.symm]
      exact noEnd f1 closed1
    · exact fun readable writable => elsewhere readable writable false true

theorem Exact.pipealloc_wp (exact : Exact extra system)
    {returns : Option (FileIndex × FileIndex) → System → Prop} {page : Option Nat}
    (isFree : ∀ page' ∈ page, (system.pipes page').allocs = (system.pipes page').frees)
    (missing : returns none system)
    (found : ∀ f0 f1 page', f0 ≠ f1 → (system.ftable f0).ref = 0 → (system.ftable f1).ref = 0 →
      (system.pipes page').allocs = (system.pipes page').frees →
        returns (some (f0, f1)) (system.withPipe f0 f1 page')) :
    Wp (pipealloc page) system returns stops := by
  rw [pipealloc, wp_bind]
  apply filealloc_wp
  · rw [wp_pure]
    exact missing
  · intro f0 free0
    have closed0 := (exact.closed f0).mpr free0
    dsimp only
    rw [wp_bind]
    apply filealloc_wp
    · rw [wp_bind]
      apply fileclose_unused_wp free0 closed0
      rw [wp_pure]
      exact missing
    · intro f1 free1
      have different : f0 ≠ f1 := by
        intro same
        rw [same, ftable_withFile_self] at free1
        cases free1
      have isF1 : (system.withFile f0 { system.ftable f0 with ref := 1 }).ftable f1 =
        system.ftable f1 := ftable_withFile_of_ne different.symm
      rw [isF1] at free1 ⊢
      have closed1 := (exact.closed f1).mpr free1
      cases page with
      | none =>
        dsimp only
        have isF0 : (system.withFile f1 { system.ftable f1 with ref := 1 }).ftable f0 =
          system.ftable f0 := ftable_withFile_of_ne different
        rw [wp_bind, withFile_comm different, ← isF0]
        apply fileclose_unused_wp
        · rw [isF0, free0]
        · rw [isF0, closed0]
        · rw [wp_bind]
          apply fileclose_unused_wp free1 closed1
          rw [wp_pure]
          exact missing
      | some page =>
        dsimp only
        rw [wp_bind, wp_setPage, wp_bind, wp_setFile, wp_bind, wp_setFile, wp_pure]
        have final := found f0 f1 page different free0 free1 (isFree page rfl)
        convert final using 1
        simp only [System.withFile, System.withPipe, update_self,
          update_of_ne different.symm, update_comm different,
          update_idem]

/-- `sys_pipe` has made a pipe, and has perhaps changed descriptors of its
process. -/
structure Piping (system current : System) (pid : Pid) (f0 f1 : FileIndex) : Prop where
  store : current.store = system.store
  files : ∀ file, file ≠ f0 → file ≠ f1 → current.ftable file = system.ftable file
  pipes : (current.ftable f0).type = .pipe ∧ (current.ftable f1).type = .pipe
  procs : ∀ other, other ≠ pid → current.procs other = system.procs other
  self : ∃ ofile, current.procs pid = { system.procs pid with ofile := ofile }
  different : f0 ≠ f1
  free : (system.ftable f0).ref = 0 ∧ (system.ftable f1).ref = 0

namespace Piping

variable {current : System}

theorem start (different : f0 ≠ f1) (free0 : (system.ftable f0).ref = 0)
    (free1 : (system.ftable f1).ref = 0) :
    Piping system (system.withPipe f0 f1 page) pid f0 f1 := by
  refine ⟨rfl, ?_, ?_, fun _ _ => rfl, ⟨_, rfl⟩, different, free0, free1⟩
  · intro file notFirst notSecond
    show ((system.withFile f0 _).withFile f1 _).ftable file = system.ftable file
    rw [ftable_withFile_of_ne notSecond, ftable_withFile_of_ne notFirst]
  · constructor
    · show (((system.withFile f0 _).withFile f1 _).ftable f0).type = .pipe
      rw [ftable_withFile_of_ne different, ftable_withFile_self]
      rfl
    · show (((system.withFile f0 _).withFile f1 _).ftable f1).type = .pipe
      rw [ftable_withFile_self]
      rfl

variable (piping : Piping system current pid f0 f1)
include piping

theorem withFd (fd : Fin NOFILE)
    (slot : Option FileIndex) : Piping system (current.withFd pid fd slot) pid f0 f1 := by
  rcases piping.self with ⟨ofile, own⟩
  refine { piping with procs := ?_, self := ?_ }
  · intro other different
    rw [System.withFd, procs_withProcess_of_ne different, piping.procs other different]
  · refine ⟨update ofile fd slot, ?_⟩
    rw [procs_withFd_self, own]

theorem stays {after : System}
    (files : ∀ file, file ≠ f0 → file ≠ f1 → after.ftable file = current.ftable file) :
    Stays system after := by
  intro file
  by_cases isFirst : file = f0
  · rw [isFirst]
    exact Or.inr (Or.inr piping.free.1)
  · by_cases isSecond : file = f1
    · rw [isSecond]
      exact Or.inr (Or.inr piping.free.2)
    · rw [files file isFirst isSecond, piping.files file isFirst isSecond]
      exact Or.inl rfl

theorem pipeBad_wp (calling : Calling live system pid cwd)
    (exact : Exact (0 + Pi.single f0 1 + Pi.single f1 1) current) :
    Wp (pipeBad f0 f1) current (fun _ => Done live (· = pid) system) stops := by
  have shape : live → Shaped current.store := by
    rw [piping.store]
    exact calling.shape
  have counted0 : 1 ≤ (current.ftable f0).ref := by
    have files := exact.files f0
    have nonneg := current.descriptors_nonneg f0
    simp only [Pi.add_apply, Pi.zero_apply, Pi.single_eq_same,
      Pi.single_eq_of_ne piping.different] at files
    omega
  rw [pipeBad, wp_bind]
  refine (exact.fileclose_wp live counted0 shape).total ?_
  intro _ middle closes
  have sameStore := closes.pipe piping.pipes.1
  have isSecond := closes.others f1 piping.different.symm
  have exactMiddle := closes.exact
  have rest : (0 + Pi.single f0 1 + Pi.single f1 1 - Pi.single f0 1 : FileIndex → Int) =
      Pi.single f1 1 := by
    abel
  rw [rest] at exactMiddle
  have counted1 : 1 ≤ (middle.ftable f1).ref := by
    have files := exactMiddle.files f1
    have nonneg := middle.descriptors_nonneg f1
    rw [Pi.single_eq_same] at files
    omega
  have shapeMiddle : live → Shaped middle.store := by
    rw [sameStore]
    exact shape
  rw [wp_bind]
  refine (exactMiddle.fileclose_wp live counted1 shapeMiddle).total ?_
  intro _ after closesToo
  have exactAfter := closesToo.exact
  rw [sub_self] at exactAfter
  rw [wp_pure]
  apply calling.done exactAfter
  · rw [closesToo.pipe (by rw [isSecond]; exact piping.pipes.2), sameStore, piping.store]
  · intro other different
    rw [closesToo.procs, closes.procs, piping.procs other different]
  · rw [closesToo.procs, closes.procs]
    exact piping.self
  · apply piping.stays
    intro file notFirst notSecond
    rw [closesToo.others file notSecond, closes.others file notFirst]

end Piping

theorem Calling.sysPipe_wp (calling : Calling live system pid cwd) {page : Option Nat}
    {copied : Bool}
    (isFree : ∀ page' ∈ page, (system.pipes page').allocs = (system.pipes page').frees) :
    Wp (sysPipe pid page copied) system (fun _ => Done live (· = pid) system)
      stops := by
  rw [sysPipe, wp_bind]
  apply calling.exact.pipealloc_wp isFree
  · exact calling.unchanged
  · intro rf wf page' different free0 free1 freePage
    have exact := calling.exact.addPipe different free0 free1 freePage
    have piping : Piping system (system.withPipe rf wf page') pid rf wf :=
      Piping.start different free0 free1
    generalize system.withPipe rf wf page' = current at exact piping
    dsimp only
    rw [wp_bind]
    apply fdalloc_wp
    · exact piping.pipeBad_wp calling exact
    · intro fd0 empty0
      have exact0 := exact.withFd pid fd0 (some rf)
      have piping0 := piping.withFd fd0 (some rf)
      rw [empty0, points_none, points_some_eq, add_zero] at exact0
      rw [wp_bind]
      apply fdalloc_wp
      · have undone := exact0.withFd pid fd0 none
        rw [ofile_withFd_self, points_none, points_some_eq, sub_zero, sub_add_cancel] at undone
        rw [wp_bind, wp_setFd]
        exact (piping0.withFd fd0 none).pipeBad_wp calling undone
      · intro fd1 empty1
        have exact1 := exact0.withFd pid fd1 (some wf)
        have piping1 := piping0.withFd fd1 (some wf)
        rw [empty1, points_none, points_some_eq, add_zero] at exact1
        dsimp only
        cases copied with
        | true =>
          rw [if_pos rfl, wp_pure]
          have settles : (0 + Pi.single rf 1 + Pi.single wf 1 - Pi.single rf 1 - Pi.single wf 1 :
              FileIndex → Int) = 0 := by
            abel
          rw [settles] at exact1
          exact calling.done exact1 piping1.store piping1.procs piping1.self
            (piping1.stays fun _ _ _ => rfl)
        | false =>
          have distinct : fd1 ≠ fd0 := by
            intro same
            rw [same, ofile_withFd_self] at empty1
            cases empty1
          have undone0 := exact1.withFd pid fd0 none
          rw [ofile_withFd_of_ne distinct.symm, ofile_withFd_self, points_none,
            points_some_eq, sub_zero] at undone0
          have undone1 := undone0.withFd pid fd1 none
          rw [ofile_withFd_of_ne distinct, ofile_withFd_self, points_none,
            points_some_eq, sub_zero] at undone1
          have restored : (0 + Pi.single rf 1 + Pi.single wf 1 - Pi.single rf 1 -
              Pi.single wf 1 + Pi.single rf 1 + Pi.single wf 1 : FileIndex → Int) =
              0 + Pi.single rf 1 + Pi.single wf 1 := by
            abel
          rw [restored] at undone1
          rw [if_neg Bool.false_ne_true, wp_bind, wp_setFd, wp_bind, wp_setFd]
          exact ((piping1.withFd fd0 none).withFd fd1 none).pipeBad_wp calling undone1

end

end

end Fs
end Xv6
