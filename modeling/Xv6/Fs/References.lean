import Mathlib.Algebra.Group.Pi.Lemmas
import Mathlib.Algebra.Order.Ring.Int
import Xv6.Foundation.Tally
import Xv6.Fs.Transactions

namespace Xv6
namespace Fs

open Foundation Function Fs.System
open Buffer (Block Pid Stop)

/-!
# References to files, inodes and pipes

A `struct file` counts the descriptors that point to it, an entry of the inode
cache counts the files that are open on it and the processes that work in it,
and a pipe has a flag for each of its two files.  Between the steps of the
system all counts are exact.  Inside of a call they are not: `sys_dup` has a
descriptor before it counts it, and `exit` gives up a file before it clears the
descriptor.  The difference is a parameter of the invariant.
-/

/-! ## Counting -/

/-- Does the slot of a descriptor point to the file? -/
def points (slot : Option FileIndex) (file : FileIndex) : Int :=
  if slot = some file then 1 else 0

/-- The descriptors of a process that point to the file. -/
def Process.descriptors (process : Process) (file : FileIndex) : Int :=
  ∑ fd, points (process.ofile fd) file

/-- Is the file open on the inode? -/
def File.opens (entry : File) (ip : Index) : Int :=
  if (entry.type = .inode ∨ entry.type = .device) ∧ entry.ip = ip then 1 else 0

/-- Does the process work in the directory? -/
def Process.worksIn (process : Process) (ip : Index) : Int :=
  if process.cwd = some ip then 1 else 0

namespace System

/-- The pairs of a process and a descriptor that point to the file. -/
def descriptors (system : System) (file : FileIndex) : Int :=
  ∑ pid, (system.procs pid).descriptors file

/-- The files that are open on the inode, and the processes that work in it. -/
def users (system : System) (ip : Index) : Int :=
  ∑ file, (system.ftable file).opens ip + ∑ pid, (system.procs pid).worksIn ip

end System

section

variable {system : System} {file other : FileIndex} {pid : Pid} {fd : Fin NOFILE} {ip : Index}

theorem points_nonneg (slot : Option FileIndex) (file : FileIndex) : 0 ≤ points slot file := by
  unfold points
  split
  · exact Int.one_nonneg
  · exact Int.le_refl 0

theorem points_some (file other : FileIndex) :
    points (some file) other = (Pi.single file 1 : FileIndex → Int) other := by
  unfold points
  by_cases same : other = file
  · rw [same, if_pos rfl, Pi.single_eq_same]
  · rw [if_neg fun isFile => same (Option.some.inj isFile).symm, Pi.single_eq_of_ne same]

theorem Process.descriptors_nonneg (process : Process) (file : FileIndex) :
    0 ≤ process.descriptors file :=
  Finset.sum_nonneg fun fd _ => points_nonneg (process.ofile fd) file

theorem File.opens_nonneg (entry : File) (ip : Index) : 0 ≤ entry.opens ip := by
  unfold File.opens
  split
  · exact Int.one_nonneg
  · exact Int.le_refl 0

theorem Process.worksIn_nonneg (process : Process) (ip : Index) : 0 ≤ process.worksIn ip := by
  unfold Process.worksIn
  split
  · exact Int.one_nonneg
  · exact Int.le_refl 0

theorem System.users_nonneg (ip : Index) : 0 ≤ system.users ip :=
  Int.add_nonneg (Finset.sum_nonneg fun file _ => (system.ftable file).opens_nonneg ip)
    (Finset.sum_nonneg fun pid _ => (system.procs pid).worksIn_nonneg ip)

theorem System.descriptors_nonneg (system : System) (file : FileIndex) : 0 ≤ system.descriptors file :=
  Finset.sum_nonneg fun pid _ => (system.procs pid).descriptors_nonneg file

theorem System.descriptors_pos (isFile : (system.procs pid).ofile fd = some file) :
    0 < system.descriptors file := by
  have own : 0 < (system.procs pid).descriptors file := by
    apply Finset.sum_pos' fun fd _ => points_nonneg _ file
    refine ⟨fd, Finset.mem_univ fd, ?_⟩
    rw [isFile, points_some, Pi.single_eq_same]
    exact Int.one_pos
  exact Finset.sum_pos' (fun pid _ => (system.procs pid).descriptors_nonneg file)
    ⟨pid, Finset.mem_univ pid, own⟩

theorem System.users_pos_of_file
    (isOpen : (system.ftable file).type = .inode ∨ (system.ftable file).type = .device) :
    0 < system.users (system.ftable file).ip := by
  have opens : 0 < (system.ftable file).opens (system.ftable file).ip := by
    rw [File.opens, if_pos ⟨isOpen, rfl⟩]
    exact Int.one_pos
  have files := Finset.sum_pos' (fun other _ =>
    (system.ftable other).opens_nonneg (system.ftable file).ip) ⟨file, Finset.mem_univ file, opens⟩
  have processes := Finset.sum_nonneg fun pid (_ : pid ∈ Finset.univ) =>
    (system.procs pid).worksIn_nonneg (system.ftable file).ip
  exact Int.add_pos_of_pos_of_nonneg files processes

theorem System.exists_cwd (works : 0 < ∑ pid, (system.procs pid).worksIn ip) :
    ∃ pid, (system.procs pid).cwd = some ip := by
  by_contra nowhere
  have notCwd := not_exists.mp nowhere
  have zero : ∑ pid, (system.procs pid).worksIn ip = 0 := by
    refine Finset.sum_eq_zero fun pid _ => ?_
    rw [Process.worksIn, if_neg (notCwd pid)]
  exact absurd zero (ne_of_gt works)

theorem System.users_pos_of_cwd (isCwd : (system.procs pid).cwd = some ip) :
    0 < system.users ip := by
  have works : 0 < (system.procs pid).worksIn ip := by
    rw [Process.worksIn, if_pos isCwd]
    exact Int.one_pos
  have processes := Finset.sum_pos' (fun pid _ => (system.procs pid).worksIn_nonneg ip)
    ⟨pid, Finset.mem_univ pid, works⟩
  have files := Finset.sum_nonneg fun file (_ : file ∈ Finset.univ) =>
    (system.ftable file).opens_nonneg ip
  exact Int.add_pos_of_nonneg_of_pos files processes

end

/-! ## The ends of a pipe -/

/-- The page of a pipe to which the file is connected, and how. -/
def File.pipeEnd (entry : File) : Option (Nat × Bool × Bool) :=
  if entry.type = .pipe then some (entry.pipe, entry.readable, entry.writable) else none

/-- Is the end for writing, or the end for reading, open? -/
def PipePage.isOpen (page : PipePage) : Bool → Bool
  | true => page.writeopen
  | false => page.readopen

/-- The page of a pipe has an open end for each file that is connected to it.
A page without files is free. -/
structure Plumbed (ends : FileIndex → Option (Nat × Bool × Bool)) (page : Nat) (entry : PipePage) :
    Prop where
  sided : ∀ file readable writable, ends file = some (page, readable, writable) →
    readable = !writable
  single : ∀ file other readable writable, ends file = some (page, readable, writable) →
    ends other = some (page, readable, writable) → file = other
  state :
    (entry.allocs = entry.frees ∧ ∀ file readable writable,
      ends file ≠ some (page, readable, writable)) ∨
    (entry.allocs = entry.frees + 1 ∧
      (∀ writable, entry.isOpen writable = true ↔
        ∃ file, ends file = some (page, !writable, writable)) ∧
      ∃ file readable writable, ends file = some (page, readable, writable))

namespace Plumbed

variable {ends : FileIndex → Option (Nat × Bool × Bool)} {page : Nat} {entry : PipePage}
  {file : FileIndex}

theorem elsewhere {new : Option (Nat × Bool × Bool)} (plumbed : Plumbed ends page entry)
    (before : ∀ readable writable, ends file ≠ some (page, readable, writable))
    (after : ∀ readable writable, new ≠ some (page, readable, writable)) :
    Plumbed (update ends file new) page entry := by
  have same : ∀ other readable writable,
      update ends file new other = some (page, readable, writable) ↔
        ends other = some (page, readable, writable) := by
    intro other readable writable
    by_cases isFile : other = file
    · subst isFile
      rw [update_self]
      exact iff_of_false (after readable writable) (before readable writable)
    · rw [update_of_ne isFile]
  refine ⟨?_, ?_, ?_⟩
  · intro other readable writable
    rw [same]
    exact plumbed.sided other readable writable
  · intro first second readable writable
    rw [same, same]
    exact plumbed.single first second readable writable
  · simp only [ne_eq, same]
    exact plumbed.state

theorem connect {f0 f1 : FileIndex} (plumbed : Plumbed ends page entry)
    (free : entry.allocs = entry.frees) (different : f0 ≠ f1) :
    Plumbed (update (update ends f0 (some (page, true, false))) f1
      (some (page, false, true))) page entry.kalloc := by
  have unused : ∀ file readable writable, ends file ≠ some (page, readable, writable) := by
    rcases plumbed.state with dead | alive
    · exact dead.2
    · omega
  have connected : ∀ file readable writable,
      update (update ends f0 (some (page, true, false))) f1
        (some (page, false, true)) file = some (page, readable, writable) ↔
      file = f0 ∧ readable = true ∧ writable = false ∨
        file = f1 ∧ readable = false ∧ writable = true := by
    intro file readable writable
    by_cases isSecond : file = f1
    · subst isSecond
      rw [update_self]
      have notFirst : file ≠ f0 := different.symm
      simp [notFirst, eq_comm]
    · rw [update_of_ne isSecond]
      by_cases isFirst : file = f0
      · subst isFirst
        rw [update_self]
        simp [different, eq_comm]
      · rw [update_of_ne isFirst]
        have none := unused file readable writable
        simp [isFirst, isSecond, none]
  refine ⟨?_, ?_, Or.inr ⟨?_, ?_, ?_⟩⟩
  · intro file readable writable isEnd
    rcases (connected file readable writable).mp isEnd with ⟨_, isReadable, isWritable⟩ |
      ⟨_, isReadable, isWritable⟩
    · rw [isReadable, isWritable]
      rfl
    · rw [isReadable, isWritable]
      rfl
  · intro first second readable writable isFirst isSecond
    rw [connected] at isFirst isSecond
    grind
  · show entry.allocs + 1 = entry.frees + 1
    rw [free]
  · intro writable
    cases writable with
    | false => exact iff_of_true rfl ⟨f0, (connected f0 true false).mpr (Or.inl ⟨rfl, rfl, rfl⟩)⟩
    | true => exact iff_of_true rfl ⟨f1, (connected f1 false true).mpr (Or.inr ⟨rfl, rfl, rfl⟩)⟩
  · exact ⟨f0, true, false, (connected f0 true false).mpr (Or.inl ⟨rfl, rfl, rfl⟩)⟩

section

variable (entry : PipePage) (writable : Bool)

/-- `pipeclose` for a file of the page. -/
def closed : PipePage :=
  let entry := entry.close writable
  if entry.readopen = false ∧ entry.writeopen = false then entry.kfree else entry

theorem closed_eq :
    closed entry writable = if entry.isOpen (!writable) = false
      then (entry.close writable).kfree else entry.close writable := by
  cases writable with
  | false | true => simp [closed, PipePage.close, PipePage.isOpen]

theorem isOpen_close :
    (entry.close writable).isOpen writable = false ∧
      (entry.close writable).isOpen (!writable) = entry.isOpen (!writable) := by
  cases writable with
  | false | true => exact ⟨rfl, rfl⟩

theorem counts_close :
    (entry.close writable).allocs = entry.allocs ∧ (entry.close writable).frees = entry.frees := by
  cases writable with
  | false | true => exact ⟨rfl, rfl⟩

end

theorem disconnect {readable writable : Bool} (plumbed : Plumbed ends page entry)
    (isEnd : ends file = some (page, readable, writable)) :
    Plumbed (update ends file none) page (closed entry writable) := by
  have isReadable := plumbed.sided file readable writable isEnd
  subst isReadable
  have left : ∀ other r w, update ends file none other = some (page, r, w) ↔
      other ≠ file ∧ ends other = some (page, r, w) := by
    intro other r w
    by_cases isFile : other = file
    · subst isFile
      rw [update_self]
      exact iff_of_false (fun impossible => nomatch impossible) fun both => both.1 rfl
    · rw [update_of_ne isFile]
      exact (and_iff_right isFile).symm
  have otherEnd : ∀ other r w, update ends file none other = some (page, r, w) → w = !writable := by
    intro other r w isOther
    rcases (left other r w).mp isOther with ⟨different, found⟩
    have isR := plumbed.sided other r w found
    subst isR
    apply Bool.eq_not_iff.mpr
    intro same
    subst same
    exact different (plumbed.single other file _ _ found isEnd)
  rcases plumbed.state with ⟨_, unused⟩ | ⟨counts, opens, _⟩
  · exact absurd isEnd (unused file _ _)
  have stillOpen : entry.isOpen (!writable) = true ↔
      ∃ other, update ends file none other = some (page, writable, !writable) := by
    rw [opens (!writable), Bool.not_not]
    constructor
    · rintro ⟨other, found⟩
      refine ⟨other, (left other _ _).mpr ⟨?_, found⟩⟩
      intro isFile
      rw [isFile, isEnd] at found
      cases writable <;> cases found
    · rintro ⟨other, isOther⟩
      exact ⟨other, ((left other _ _).mp isOther).2⟩
  refine ⟨?_, ?_, ?_⟩
  · intro other r w isOther
    exact plumbed.sided other r w ((left other r w).mp isOther).2
  · intro first second r w isFirst isSecond
    exact plumbed.single first second r w ((left first r w).mp isFirst).2
      ((left second r w).mp isSecond).2
  · rw [closed_eq]
    cases isOpen : entry.isOpen (!writable) with
    | false =>
      rw [if_pos rfl]
      refine Or.inl ⟨?_, ?_⟩
      · show (entry.close writable).allocs = (entry.close writable).frees + 1
        rw [(counts_close entry writable).1, (counts_close entry writable).2, counts]
      · intro other r w isOther
        have isW := otherEnd other r w isOther
        have isR := plumbed.sided other r w ((left other r w).mp isOther).2
        rw [isOpen] at stillOpen
        apply Bool.false_ne_true
        apply stillOpen.mpr
        refine ⟨other, ?_⟩
        rw [isOther, isR, isW, Bool.not_not]
    | true =>
      rw [if_neg Bool.false_ne_true.symm]
      rcases stillOpen.mp isOpen with ⟨last, isLast⟩
      refine Or.inr ⟨?_, ?_, last, _, _, isLast⟩
      · rw [(counts_close entry writable).1, (counts_close entry writable).2, counts]
      · intro w
        by_cases same : w = writable
        · subst same
          rw [(isOpen_close entry w).1]
          apply iff_of_false Bool.false_ne_true
          rintro ⟨other, isOther⟩
          have impossible := otherEnd other _ _ isOther
          cases w <;> cases impossible
        · have isW : w = !writable := Bool.eq_not_iff.mpr same
          subst isW
          rw [(isOpen_close entry writable).2, Bool.not_not]
          exact stillOpen

end Plumbed

/-! ## The invariant -/

/-- Is the file open on an inode? -/
def File.IsOpen (entry : File) : Prop :=
  entry.type = .inode ∨ entry.type = .device

/-- An inode that is open has a type, and it is no directory if the file can be
written. -/
def File.Suits (entry : File) (store : Store) : Prop :=
  (store.nodes (store.icache entry.ip).inum).type ≠ 0 ∧
    (entry.writable = true → (store.nodes (store.icache entry.ip).inum).type ≠ T_DIR)

/-- The files count the descriptors that point to them, up to what a call
holds. -/
structure Tabled (extra : FileIndex → Int) (system : System) : Prop where
  files : ∀ file, (system.ftable file).ref = system.descriptors file + extra file
  closed : ∀ file, (system.ftable file).type = .none ↔ (system.ftable file).ref = 0
  offsets : ∀ file, (system.ftable file).off < 2 ^ 32

/-- The inodes count what uses them, and none is locked. -/
structure Held (system : System) : Prop where
  consistent : Consistent system.store
  unlocked : system.store.locks = fun _ => false
  inodes : system.store.refs = system.users
  opened : ∀ file, (system.ftable file).IsOpen → (system.ftable file).Suits system.store
  cwds : ∀ pid cwd, (system.procs pid).cwd = some cwd →
    (system.store.nodes (system.store.icache cwd).inum).type = T_DIR

structure Exact (extra : FileIndex → Int) (system : System) : Prop extends
    Tabled extra system, Held system where
  pipes : ∀ page, Plumbed (fun file => (system.ftable file).pipeEnd) page (system.pipes page)

namespace System

section

variable (system : System)

/-- The system after an assignment to the table of files. -/
def withFile (file : FileIndex) (entry : File) : System :=
  { system with ftable := update system.ftable file entry }

/-- The system after an assignment to a process. -/
def withProcess (pid : Pid) (process : Process) : System :=
  { system with procs := update system.procs pid process }

/-- The system after an assignment to a descriptor. -/
def withFd (pid : Pid) (fd : Fin NOFILE) (slot : Option FileIndex) : System :=
  system.withProcess pid { system.procs pid with
    ofile := update (system.procs pid).ofile fd slot }

/-- The system after a transaction. -/
def withStore (store : Store) : System :=
  { system with store := store }

end

variable {system : System} {file : FileIndex} {entry : File} {pid : Pid} {process : Process}

@[simp] theorem procs_withProcess_self : (system.withProcess pid process).procs pid = process :=
  update_self _ _ _

theorem procs_withProcess_of_ne {other : Pid} (different : other ≠ pid) :
    (system.withProcess pid process).procs other = system.procs other :=
  update_of_ne different _ _

@[simp] theorem ftable_withFile_self : (system.withFile file entry).ftable file = entry :=
  update_self _ _ _

theorem ftable_withFile_of_ne {other : FileIndex} (different : other ≠ file) :
    (system.withFile file entry).ftable other = system.ftable other :=
  update_of_ne different _ _

section

variable (system : System) (pid : Pid) (process : Process)

theorem descriptors_withProcess (other : FileIndex) :
    (system.withProcess pid process).descriptors other + (system.procs pid).descriptors other =
      system.descriptors other + process.descriptors other :=
  sum_update (fun process => process.descriptors other) system.procs pid process

theorem users_withProcess (ip : Index) :
    (system.withProcess pid process).users ip + (system.procs pid).worksIn ip =
      system.users ip + process.worksIn ip := by
  have trade := sum_update (fun process => process.worksIn ip) system.procs pid process
  have isUsers : (system.withProcess pid process).users ip =
      ∑ file, (system.ftable file).opens ip +
        ∑ other, (update system.procs pid process other).worksIn ip := rfl
  rw [isUsers, users]
  omega

end

theorem users_withFile (system : System) (file : FileIndex) (entry : File) (ip : Index) :
    (system.withFile file entry).users ip + (system.ftable file).opens ip =
      system.users ip + entry.opens ip := by
  have trade := sum_update (fun entry => entry.opens ip) system.ftable file entry
  have isUsers : (system.withFile file entry).users ip =
      ∑ other, (update system.ftable file entry other).opens ip +
        ∑ pid, (system.procs pid).worksIn ip := rfl
  rw [isUsers, users]
  omega

end System

theorem Process.descriptors_update (process : Process) (fd : Fin NOFILE)
    (slot : Option FileIndex) (file : FileIndex) :
    Process.descriptors { process with ofile := update process.ofile fd slot } file +
        points (process.ofile fd) file =
      process.descriptors file + points slot file :=
  sum_update (fun slot => points slot file) process.ofile fd slot

namespace Tabled

variable {extra : FileIndex → Int} {system : System} {file : FileIndex}
  (tabled : Tabled extra system)
include tabled

theorem withProcess (pid : Pid) (process : Process) :
    Tabled (extra + (system.procs pid).descriptors - process.descriptors)
      (system.withProcess pid process) := by
  refine ⟨?_, tabled.closed, tabled.offsets⟩
  intro file
  have trade := system.descriptors_withProcess pid process file
  have files := tabled.files file
  simp only [Pi.add_apply, Pi.sub_apply]
  show (system.ftable file).ref = _
  omega

theorem withFd (pid : Pid) (fd : Fin NOFILE) (slot : Option FileIndex) :
    Tabled (extra + points ((system.procs pid).ofile fd) - points slot)
      (system.withFd pid fd slot) := by
  have changed := tabled.withProcess pid { system.procs pid with
    ofile := update (system.procs pid).ofile fd slot }
  have same : extra + points ((system.procs pid).ofile fd) - points slot =
      extra + (system.procs pid).descriptors - Process.descriptors { system.procs pid with
        ofile := update (system.procs pid).ofile fd slot } := by
    funext file
    have trade := (system.procs pid).descriptors_update fd slot file
    simp only [Pi.add_apply, Pi.sub_apply]
    omega
  rw [same]
  exact changed

theorem withFile (file : FileIndex) (entry : File)
    (closed : entry.type = .none ↔ entry.ref = 0) (offset : entry.off < 2 ^ 32) :
    Tabled (extra + Pi.single file (entry.ref - (system.ftable file).ref))
      (system.withFile file entry) := by
  refine ⟨?_, ?_, ?_⟩
  · intro other
    have files := tabled.files other
    have same : (system.withFile file entry).descriptors other = system.descriptors other := rfl
    rw [same, Pi.add_apply]
    by_cases isFile : other = file
    · subst isFile
      rw [ftable_withFile_self, Pi.single_eq_same]
      omega
    · rw [ftable_withFile_of_ne isFile, Pi.single_eq_of_ne isFile]
      omega
  · intro other
    by_cases isFile : other = file
    · subst isFile
      rw [ftable_withFile_self]
      exact closed
    · rw [ftable_withFile_of_ne isFile]
      exact tabled.closed other
  · intro other
    by_cases isFile : other = file
    · subst isFile
      rw [ftable_withFile_self]
      exact offset
    · rw [ftable_withFile_of_ne isFile]
      exact tabled.offsets other

end Tabled

variable {live : Prop} {base refs : Index → Int} {locks : Index → Bool} {before after : Store}

theorem Ends.type_eq (ends : Ends live live base before after refs locks) {ip : Index}
    (positive : 0 < base ip) (typed : (before.nodes (before.icache ip).inum).type ≠ 0) :
    (after.nodes (after.icache ip).inum).type = (before.nodes (before.icache ip).inum).type := by
  rw [ends.inum ip positive, ends.type ip positive typed]

variable {file : FileIndex}

namespace Held

variable {system rest middle : System} (held : Held system)
include held

/-- A transaction, and what it is for.  What is left in between keeps its
inodes, and what is new suits its inode. -/
theorem settle (ends : Ends live live rest.users system.store after middle.users)
    (opened : ∀ file, (middle.ftable file).IsOpen →
      rest.ftable file = system.ftable file ∧ middle.ftable file = system.ftable file ∨
        (middle.ftable file).Suits after)
    (cwds : ∀ pid cwd, (middle.procs pid).cwd = some cwd →
      (rest.procs pid).cwd = some cwd ∧ (system.procs pid).cwd = some cwd ∨
        (after.nodes (after.icache cwd).inum).type = T_DIR) :
    Held (middle.withStore after) := by
  refine ⟨ends.consistent, ends.locks, ends.refs, ?_, ?_⟩
  · intro file isOpen
    rcases opened file isOpen with ⟨inRest, same⟩ | suits
    · have wasOpen : (system.ftable file).IsOpen := by
        rw [← same]
        exact isOpen
      have positive : 0 < rest.users (rest.ftable file).ip := by
        apply users_pos_of_file
        rw [inRest]
        exact wasOpen
      rw [inRest] at positive
      have suits := held.opened file wasOpen
      have type := ends.type_eq positive suits.1
      show (middle.ftable file).Suits after
      rw [same, File.Suits, type]
      exact suits
    · exact suits
  · intro pid cwd isCwd
    rcases cwds pid cwd isCwd with ⟨inRest, inSystem⟩ | isDir
    · have wasDir := held.cwds pid cwd inSystem
      have typed := ne_zero_of_isDir wasDir
      show (after.nodes (after.icache cwd).inum).type = T_DIR
      rw [ends.type_eq (users_pos_of_cwd inRest) typed, wasDir]
    · exact isDir

theorem withStore (ends : Ends live live system.store.refs system.store after) :
    Held (system.withStore after) := by
  rw [held.inodes] at ends
  exact held.settle ends (fun file _ => Or.inl ⟨rfl, rfl⟩) fun pid cwd isCwd => Or.inl ⟨isCwd, isCwd⟩

theorem withProcess (pid : Pid) (process : Process)
    (sameCwd : process.cwd = (system.procs pid).cwd) : Held (system.withProcess pid process) := by
  refine { held with inodes := ?_, cwds := ?_ }
  · funext ip
    have trade := system.users_withProcess pid process ip
    have same : process.worksIn ip = (system.procs pid).worksIn ip := by
      rw [Process.worksIn, Process.worksIn, sameCwd]
    have inodes := congrFun held.inodes ip
    show system.store.refs ip = _
    omega
  · intro other cwd isCwd
    apply held.cwds other cwd
    by_cases same : other = pid
    · subst same
      rw [procs_withProcess_self, sameCwd] at isCwd
      exact isCwd
    · rw [procs_withProcess_of_ne same] at isCwd
      exact isCwd

theorem withFile {entry : File} (users : ∀ ip, entry.opens ip = (system.ftable file).opens ip)
    (suits : entry.IsOpen → entry.Suits system.store) : Held (system.withFile file entry) := by
  refine { held with inodes := ?_, opened := ?_ }
  · funext ip
    have trade := system.users_withFile file entry ip
    have same := users ip
    have inodes := congrFun held.inodes ip
    show system.store.refs ip = _
    omega
  · intro other
    by_cases isFile : other = file
    · subst isFile
      rw [ftable_withFile_self]
      exact suits
    · rw [ftable_withFile_of_ne isFile]
      exact held.opened other

end Held

theorem pipeEnd_withFile (system : System) (file : FileIndex) (entry : File) :
    (fun other => ((system.withFile file entry).ftable other).pipeEnd) =
      update (fun other => (system.ftable other).pipeEnd) file entry.pipeEnd := by
  funext other
  by_cases isFile : other = file
  · subst isFile
    rw [ftable_withFile_self, update_self]
  · rw [ftable_withFile_of_ne isFile, update_of_ne isFile]

/-- What a file is, apart from its count and its offset. -/
def File.kind (entry : File) : FileType × Bool × Bool × Nat × Index :=
  (entry.type, entry.readable, entry.writable, entry.pipe, entry.ip)

namespace Exact

variable {extra : FileIndex → Int} {system : System} (exact : Exact extra system)
include exact

theorem refs_pos (isOpen : (system.ftable file).IsOpen) :
    0 < system.store.refs (system.ftable file).ip := by
  rw [exact.inodes]
  exact users_pos_of_file isOpen

theorem withFd (pid : Pid) (fd : Fin NOFILE) (slot : Option FileIndex) :
    Exact (extra + points ((system.procs pid).ofile fd) - points slot)
      (system.withFd pid fd slot) :=
  ⟨exact.toTabled.withFd pid fd slot, exact.toHeld.withProcess pid _ rfl, exact.pipes⟩

theorem withStore (ends : Ends live live system.store.refs system.store after) :
    Exact extra (system.withStore after) :=
  ⟨{ exact.toTabled with }, exact.toHeld.withStore ends, exact.pipes⟩

theorem recount (file : FileIndex) (entry : File)
    (kind : entry.kind = (system.ftable file).kind) (offset : entry.off < 2 ^ 32)
    (closed : entry.type = .none ↔ entry.ref = 0) :
    Exact (extra + Pi.single file (entry.ref - (system.ftable file).ref))
      (system.withFile file entry) := by
  simp only [File.kind, Prod.mk.injEq] at kind
  rcases kind with ⟨type, readable, writable, pipe, isIp⟩
  refine ⟨exact.toTabled.withFile file entry closed offset, exact.toHeld.withFile ?_ ?_, ?_⟩
  · intro ip
    rw [File.opens, File.opens, type, isIp]
  · have suits := exact.opened file
    rw [File.IsOpen, File.Suits] at suits ⊢
    rw [type, isIp, writable]
    exact suits
  · intro page
    have same : entry.pipeEnd = (system.ftable file).pipeEnd := by
      rw [File.pipeEnd, File.pipeEnd, type, readable, writable, pipe]
    rw [pipeEnd_withFile, same, update_eq_self]
    exact exact.pipes page

theorem type_ne_none (counted : 1 ≤ (system.ftable file).ref) :
    (system.ftable file).type ≠ .none := by
  intro closed
  have zero := (exact.closed file).mp closed
  omega

end Exact

/-! ## Assignments as programs -/

section

variable {system : System} {returns : PUnit → System → Prop} {stops : Stop → System → Prop}

theorem wp_setFile (file : FileIndex) (update : File → File) :
    Wp (setFile file update) system returns stops ↔
      returns ⟨⟩ (system.withFile file (update (system.ftable file))) := by
  rw [setFile, wp_modify]
  rfl

theorem wp_setProcess (pid : Pid) (update : Process → Process) :
    Wp (setProcess pid update) system returns stops ↔
      returns ⟨⟩ (system.withProcess pid (update (system.procs pid))) := by
  rw [setProcess, wp_modify]
  rfl

theorem wp_setFd (pid : Pid) (fd : Fin NOFILE) (slot : Option FileIndex) :
    Wp (setFd pid fd slot) system returns stops ↔ returns ⟨⟩ (system.withFd pid fd slot) := by
  rw [setFd, wp_setProcess]
  rfl

theorem wp_setPage (page : Nat) (update : PipePage → PipePage) :
    Wp (setPage page update) system returns stops ↔
      returns ⟨⟩ { system with
        pipes := Function.update system.pipes page (update (system.pipes page)) } := by
  rw [setPage, wp_modify]

theorem filealloc_wp {returns : Option FileIndex → System → Prop} (missing : returns none system)
    (found : ∀ file, (system.ftable file).ref = 0 →
      returns (some file) (system.withFile file { system.ftable file with ref := 1 })) :
    Wp filealloc system returns stops := by
  rw [filealloc, wp_bind, wp_get]
  split
  · rename_i file isFound
    rw [wp_bind, wp_setFile, wp_pure]
    have free := List.find?_some isFound
    exact found file (of_decide_eq_true free)
  · rw [wp_pure]
    exact missing

theorem fdalloc_wp {pid : Pid} {returns : Option (Fin NOFILE) → System → Prop}
    (missing : returns none system) (found : ∀ fd, (system.procs pid).ofile fd = none →
      returns (some fd) (system.withFd pid fd (some file))) :
    Wp (fdalloc pid file) system returns stops := by
  simp only [fdalloc, wp_bind, wp_get]
  split
  · rename_i fd isFound
    rw [wp_bind, wp_setFd, wp_pure]
    have empty := List.find?_some isFound
    exact found fd (Option.isNone_iff_eq_none.mp empty)
  · rw [wp_pure]
    exact missing

end

/-! ## `fileclose` -/

/-- How a step changes the store. -/
structure Advances (live : Prop) (before after : Store) : Prop where
  sb : after.sb = before.sb
  tree : live → Tree before.sb.ninodes after.nodes
  followed : Followed live before after

theorem Ends.advances (ends : Ends live live base before after refs locks) :
    Advances live before after :=
  ⟨ends.sb, ends.tree, ends.followed⟩

theorem Advances.refl {store : Store} (shape : live → Shaped store) : Advances live store store :=
  ⟨rfl, fun isLive => (shape isLive).1, Followed.of_eq rfl⟩

/-- The entry of a file that is closed. -/
def File.cleared (entry : File) : File :=
  { entry with ref := 0, type := .none }

/-- What `fileclose` does. -/
structure Closes (live : Prop) (extra : FileIndex → Int) (system after : System)
    (file : FileIndex) : Prop where
  exact : Exact (extra - Pi.single file 1) after
  procs : after.procs = system.procs
  others : ∀ other, other ≠ file → after.ftable other = system.ftable other
  self : (after.ftable file).kind = (system.ftable file).kind ∨ (after.ftable file).ref = 0
  advances : Advances live system.store after.store
  pipe : (system.ftable file).type = .pipe → after.store = system.store

section

variable {extra : FileIndex → Int} {system : System}

/-- The last reference to a file goes away. -/
theorem Tabled.clear (tabled : Tabled extra system) (last : (system.ftable file).ref = 1) :
    Tabled (extra - Pi.single file 1) (system.withFile file (system.ftable file).cleared) := by
  have changed := tabled.withFile file (system.ftable file).cleared (iff_of_true rfl rfl)
    (tabled.offsets file)
  have less : (system.ftable file).cleared.ref - (system.ftable file).ref = -1 := by
    rw [last]
    rfl
  rw [less, Pi.single_neg, ← sub_eq_add_neg] at changed
  exact changed

variable (exact : Exact extra system)
include exact

theorem Exact.closePipe_wp (last : (system.ftable file).ref = 1)
    (isPipe : (system.ftable file).type = .pipe) (shape : live → Shaped system.store) :
    Wp (pipeclose (system.ftable file).pipe (system.ftable file).writable)
      (system.withFile file (system.ftable file).cleared)
      fun _ after => Closes live extra system after file := by
  have isEnd : (system.ftable file).pipeEnd =
      some ((system.ftable file).pipe, (system.ftable file).readable,
        (system.ftable file).writable) := by
    rw [File.pipeEnd, if_pos isPipe]
  have noEnd : (system.ftable file).cleared.pipeEnd = none := rfl
  have held : Held (system.withFile file (system.ftable file).cleared) := by
    apply exact.toHeld.withFile
    · intro ip
      rw [File.opens, File.opens, isPipe]
      rfl
    · rintro (impossible | impossible)
      · cases impossible
      · cases impossible
  rw [pipeclose, wp_setPage]
  refine ⟨⟨{ exact.toTabled.clear last with }, { held with }, ?_⟩, rfl, ?_, Or.inr ?_,
    Advances.refl shape, fun _ => rfl⟩
  · intro page
    show Plumbed (fun other =>
      ((system.withFile file (system.ftable file).cleared).ftable other).pipeEnd) page
      (update system.pipes (system.ftable file).pipe _ page)
    rw [pipeEnd_withFile, noEnd]
    by_cases isPage : page = (system.ftable file).pipe
    · subst isPage
      rw [update_self]
      exact (exact.pipes _).disconnect isEnd
    · rw [update_of_ne isPage]
      apply (exact.pipes page).elsewhere
      · intro readable writable same
        rw [isEnd] at same
        cases same
        exact isPage rfl
      · intro readable writable impossible
        cases impossible
  · exact fun other different => ftable_withFile_of_ne different
  · show ((system.withFile file (system.ftable file).cleared).ftable file).ref = 0
    rw [ftable_withFile_self]
    rfl

theorem Exact.closeInode_wp (last : (system.ftable file).ref = 1)
    (isOpen : (system.ftable file).IsOpen) (shape : live → Shaped system.store) :
    Wp (onStore (closeInode (system.ftable file).ip))
      (system.withFile file (system.ftable file).cleared)
      fun _ after => Closes live extra system after file := by
  have users : system.store.refs =
      (system.withFile file (system.ftable file).cleared).users +
        Pi.single (system.ftable file).ip 1 := by
    funext ip
    have trade := system.users_withFile file (system.ftable file).cleared ip
    have none : (system.ftable file).cleared.opens ip = 0 := rfl
    have own : (system.ftable file).opens ip =
        (Pi.single (system.ftable file).ip 1 : Index → Int) ip := by
      rw [File.opens]
      by_cases same : ip = (system.ftable file).ip
      · rw [if_pos ⟨isOpen, same.symm⟩, same, Pi.single_eq_same]
      · rw [if_neg fun both => same both.2.symm, Pi.single_eq_of_ne same]
    rw [exact.inodes, Pi.add_apply]
    omega
  have starts : Starts live system.store (system.ftable file).ip :=
    ⟨exact.consistent, exact.unlocked, exact.refs_pos isOpen, shape⟩
  have nonneg : ∀ ip, 0 ≤ (system.withFile file (system.ftable file).cleared).users ip :=
    fun ip => users_nonneg ip
  rw [wp_onStore]
  refine (starts.closeInode_wp users nonneg).imp ?_
  intro _ after ends
  have notPipe : (system.ftable file).type ≠ .pipe := by
    intro isPipe
    rw [File.IsOpen, isPipe] at isOpen
    rcases isOpen with impossible | impossible
    · cases impossible
    · cases impossible
  refine ⟨⟨{ exact.toTabled.clear last with }, ?_, ?_⟩, rfl, ?_, Or.inr ?_, ends.advances,
    fun isPipe => absurd isPipe notPipe⟩
  · apply exact.toHeld.settle ends
    · intro other stillOpen
      have different : other ≠ file := by
        intro same
        rw [same, ftable_withFile_self] at stillOpen
        rcases stillOpen with impossible | impossible
        · cases impossible
        · cases impossible
      have same : (system.withFile file (system.ftable file).cleared).ftable other =
        system.ftable other := ftable_withFile_of_ne different
      exact Or.inl ⟨same, same⟩
    · exact fun pid cwd isCwd => Or.inl ⟨isCwd, isCwd⟩
  · intro page
    show Plumbed (fun other =>
      ((system.withFile file (system.ftable file).cleared).ftable other).pipeEnd) page _
    have before : (system.ftable file).pipeEnd = none := by
      rw [File.pipeEnd, if_neg notPipe]
    have same : (system.ftable file).cleared.pipeEnd = (system.ftable file).pipeEnd := by
      rw [before]
      rfl
    rw [pipeEnd_withFile, same, update_eq_self]
    exact exact.pipes page
  · exact fun other different => ftable_withFile_of_ne different
  · show ((system.withFile file (system.ftable file).cleared).ftable file).ref = 0
    rw [ftable_withFile_self]
    rfl

theorem Exact.fileclose_wp (live : Prop)
    (counted : 1 ≤ (system.ftable file).ref) (shape : live → Shaped system.store) :
    Wp (fileclose file) system fun _ after => Closes live extra system after file := by
  have typed := exact.type_ne_none counted
  simp only [fileclose, wp_bind, wp_get, wp_ite]
  rw [if_neg (by omega)]
  by_cases more : (system.ftable file).ref - 1 > 0
  · rw [if_pos more, wp_setFile]
    have changed := exact.recount file
      { system.ftable file with ref := (system.ftable file).ref - 1 } rfl (exact.offsets file)
      (iff_of_false typed (by dsimp only; omega))
    have less : (system.ftable file).ref - 1 - (system.ftable file).ref = -1 := by omega
    dsimp only at changed
    rw [less, Pi.single_neg, ← sub_eq_add_neg] at changed
    refine ⟨changed, rfl, fun other different => ftable_withFile_of_ne different,
      Or.inl ?_, Advances.refl shape, fun _ => rfl⟩
    rw [ftable_withFile_self]
    rfl
  · have last : (system.ftable file).ref = 1 := by omega
    rw [if_neg more, wp_setFile]
    cases isType : (system.ftable file).type with
    | none => exact absurd isType typed
    | pipe => exact exact.closePipe_wp last isType shape
    | inode => exact exact.closeInode_wp last (Or.inl isType) shape
    | device => exact exact.closeInode_wp last (Or.inr isType) shape

end

end Fs
end Xv6
