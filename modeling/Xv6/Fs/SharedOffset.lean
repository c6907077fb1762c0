import Mathlib.Algebra.BigOperators.Group.List.Basic
import Xv6.Fs.FileIO
import Xv6.Fs.Writeback

namespace Xv6
namespace Fs

open Foundation
open Buffer (Block Pid Stop)

/-!
# A shared file offset

Several processes read and write through one entry of the file table.  A long
write is cut into chunks, and between two of them the inode is not locked, so
chunks of different calls come in any order.  This module is about whole chunks:
each of them covers the range of the file from the offset on, and moves the offset
behind it.  Hence the chunks, in the order in which they are done, cover ranges
that follow each other.
-/

/-! ## Chunks -/

/-- What one call has done while it had the inode locked.  A chunk of a write
has the bytes that it took from the buffer of the process. -/
structure Chunk where
  pid : Pid
  start : Nat
  length : Nat
  data : Option (List UInt8)
deriving DecidableEq

namespace Chunk

def bytes (chunk : Chunk) : List UInt8 :=
  chunk.data.getD []

/-- The contents of a file after a chunk. -/
def apply (contents : List UInt8) (chunk : Chunk) : List UInt8 :=
  match chunk.data with
  | some bytes => overwrite contents chunk.start bytes
  | none => contents

end Chunk

/-- The chunk that a step does on a file, by what `readi` or `writei` returns in
it.  Calls that transfer nothing have no chunk. -/
def chunkOf (file : FileIndex) (system : System) : Action → Option Chunk
  | .call pid (.read _ memory address n) =>
    match (fileread file memory address n).run system with
    | .ok (r, _) _ =>
      if 0 < r then some ⟨pid, (system.ftable file).off, r.toNat, none⟩ else none
    | .error .. => none
  | .resume pid =>
    match (system.procs pid).pending with
    | .writing _ memory address n i =>
      if (i : Int) < n then
        match (filewriteChunk file memory ((address + i) % 2 ^ 64)
          (min (n - i).toNat maxChunk)).run system with
        | .ok written _ =>
          if 0 < written then
            some ⟨pid, (system.ftable file).off, written.toNat,
              some (userBytes memory ((address + i) % 2 ^ 64) written.toNat)⟩
          else none
        | .error .. => none
      else none
    | _ => none
  | _ => none

/-- The chunks cover ranges that follow each other. -/
def Consecutive : Nat → List Chunk → Prop
  | _, [] => True
  | off, chunk :: rest => chunk.start = off ∧ Consecutive (off + chunk.length) rest

/-! ## Calls on one file -/

/-- The step is part of a read or a write on the file.  A buffer that is written
to the file is mapped, and what is written does not go beyond the largest size of
a file. -/
def Shares (file : FileIndex) (system : System) : Action → Prop
  | .call pid (.read fd _ _ _) => (argfd (system.procs pid) fd).map Prod.snd = some file
  | .call pid (.write fd memory address n) =>
    (argfd (system.procs pid) fd).map Prod.snd = some file ∧ n < 2 ^ 31 ∧
      memory.Maps address n.toNat
  | .resume pid =>
    match (system.procs pid).pending with
    | .writing _ _ _ n i =>
      (system.ftable file).off + min (n - i).toNat maxChunk ≤ MAXFILE * BSIZE
    | _ => True
  | .evict _ => True
  | .call _ _ => False

instance (memory : UserMemory) (address count : Nat) : Decidable (memory.Maps address count) :=
  inferInstanceAs (Decidable (∀ i, i < count → _ = true))

instance (file : FileIndex) (system : System) :
    (action : Action) → Decidable (Shares file system action)
  | .call pid (.read fd _ _ _) =>
    inferInstanceAs (Decidable ((argfd (system.procs pid) fd).map Prod.snd = some file))
  | .call pid (.write fd memory address n) =>
    inferInstanceAs (Decidable ((argfd (system.procs pid) fd).map Prod.snd = some file ∧
      n < 2 ^ 31 ∧ memory.Maps address n.toNat))
  | .resume pid =>
    match isPending : (system.procs pid).pending with
    | .writing _ _ _ n i =>
      decidable_of_iff ((system.ftable file).off + min (n - i).toNat maxChunk ≤ MAXFILE * BSIZE)
        (by simp only [Shares, isPending])
    | .idle => .isTrue (by simp only [Shares, isPending])
    | .exiting _ => .isTrue (by simp only [Shares, isPending])
  | .evict _ => .isTrue trivial
  | .call _ (.open ..) | .call _ (.dup _) | .call _ (.close _) | .call _ (.pipe ..)
  | .call _ (.fstat _) | .call _ (.mkdir _) | .call _ (.mknod ..) | .call _ (.unlink _)
  | .call _ (.link ..) | .call _ (.chdir _) | .call _ (.exec ..) | .call _ (.fork _)
  | .call _ .exit => .isFalse id

/-- The bytes that a step asks to be written for a process. -/
def requested (file : FileIndex) (pid : Pid) (system : System) : Action → List UInt8
  | .call caller (.write _ memory address n) =>
    if caller = pid ∧ (system.ftable file).writable = true then userBytes memory address n.toNat
    else []
  | _ => []

/-- The bytes of its buffer that a process has still to write. -/
def remaining (system : System) (pid : Pid) : List UInt8 :=
  match (system.procs pid).pending with
  | .writing _ memory address n i => userBytes memory ((address + i) % 2 ^ 64) (n - i).toNat
  | _ => []

/-! ## The invariant -/

/-- The calls that are not finished are writes to the file, from mapped buffers. -/
def Writers (file : FileIndex) (system : System) : Prop :=
  ∀ pid, (system.procs pid).pending = .idle ∨
    ∃ memory address n i, (system.procs pid).pending = .writing file memory address n i ∧
      n < 2 ^ 31 ∧ UserMemory.Maps memory address n.toNat ∧ i ≤ n.toNat

/-- What holds while processes share a file. -/
structure Sharing (file : FileIndex) (system : System) : Prop where
  kept : Kept system
  clean : CleanStore system
  isInode : (system.ftable file).type = .inode
  inside : (system.ftable file).off ≤ system.sizeOf file
  writers : Writers file system

/-- What a step does to the file, in terms of its chunk. -/
structure Advanced (file : FileIndex) (system : System) (action : Action) (after : System) :
    Prop where
  isInode : (after.ftable file).type = .inode
  inside : (after.ftable file).off ≤ after.sizeOf file
  writers : Writers file after
  off : (after.ftable file).off =
    (system.ftable file).off + (chunkOf file system action).elim 0 Chunk.length
  start : ∀ chunk ∈ chunkOf file system action, chunk.start = (system.ftable file).off ∧
    ∀ bytes ∈ chunk.data, bytes.length = chunk.length
  contents : after.contentsOf file =
    (chunkOf file system action).elim (system.contentsOf file) (Chunk.apply (system.contentsOf file))
  bytes : ∀ pid, ((chunkOf file system action).toList.filter (·.pid = pid)).flatMap Chunk.bytes ++
      remaining after pid =
    remaining system pid ++ requested file pid system action

variable {system after : System} {action : Action}

theorem step_eq_next (stepped : step system action = .next after) :
    ∃ program, action.program system = some program ∧ program.run system = .ok ⟨⟩ after := by
  unfold step at stepped
  split at stepped
  · rename_i program isProgram
    exact ⟨program, isProgram, System.attempt_eq_next stepped⟩
  · cases stepped

theorem call_eq_next {pid : Pid} {request : Call}
    (stepped : step system (.call pid request) = .next after) :
    ∃ cwd, (system.procs pid).cwd = some cwd ∧ (system.procs pid).pending = .idle ∧
      (request.run pid cwd).run system = .ok ⟨⟩ after := by
  rcases step_eq_next stepped with ⟨program, isProgram, ran⟩
  simp only [Action.program] at isProgram
  split at isProgram
  · rename_i cwd isCwd isPending
    split at isProgram
    · cases isProgram
      exact ⟨cwd, isCwd, isPending, ran⟩
    · cases isProgram
  · cases isProgram

variable {address fd off : Nat} {n : Int} {process : Process}

section

variable {file : FileIndex} {pid : Pid}

theorem remaining_of_pending {other : System}
    (same : (after.procs pid).pending = (other.procs pid).pending) :
    remaining after pid = remaining other pid := by
  rw [remaining, remaining, same]

theorem remaining_idle (idle : (system.procs pid).pending = .idle) : remaining system pid = [] := by
  rw [remaining, idle]

variable {memory : UserMemory}

theorem remaining_writing {i : Nat}
    (writing : (system.procs pid).pending = .writing file memory address n i) :
    remaining system pid = userBytes memory ((address + i) % 2 ^ 64) (n - i).toNat := by
  rw [remaining, writing]

theorem requested_resume (other : Pid) : requested file other system (.resume pid) = [] := rfl

theorem Writers.withProcess (writers : Writers file system) (own : process.pending = .idle ∨
      ∃ memory address n i, process.pending = .writing file memory address n i ∧
        n < 2 ^ 31 ∧ UserMemory.Maps memory address n.toNat ∧ i ≤ n.toNat) :
    Writers file (system.withProcess pid process) := by
  intro other
  by_cases isPid : other = pid
  · rw [isPid, System.procs_withProcess_self]
    exact own
  · rw [System.procs_withProcess_of_ne isPid]
    exact writers other

theorem remaining_of_ne {other : Pid} (different : other ≠ pid) :
    remaining (system.withProcess pid process) other = remaining system other := by
  rw [remaining, System.procs_withProcess_of_ne different]
  rfl

/-- A step without a chunk leaves the file alone. -/
theorem Sharing.without (sharing : Sharing file system)
    (noChunk : chunkOf file system action = none)
    (sameEntry : after.ftable file = system.ftable file)
    (sameInum : after.inumOf file = system.inumOf file)
    (sameVolume : after.store.volume = system.store.volume) (writers : Writers file after)
    (bytes : ∀ pid, remaining after pid = remaining system pid ++ requested file pid system action) :
    Advanced file system action after := by
  have sameSize : after.sizeOf file = system.sizeOf file := by
    rw [System.sizeOf, sameInum, sameVolume]
    rfl
  refine ⟨?_, ?_, writers, ?_, ?_, ?_, ?_⟩
  · rw [sameEntry]
    exact sharing.isInode
  · rw [sameEntry, sameSize]
    exact sharing.inside
  · rw [sameEntry, noChunk]
    rfl
  · rw [noChunk]
    intro chunk impossible
    cases impossible
  · rw [noChunk, System.contentsOf, sameInum, sameVolume]
    rfl
  · rw [noChunk]
    exact bytes

/-- The buffer cache evicts a buffer. -/
theorem Sharing.evict (sharing : Sharing file system) {blockno : Nat}
    (stepped : step system (.evict blockno) = .next after) :
    Advanced file system (.evict blockno) after := by
  rcases step_eq_next stepped with ⟨program, isProgram, ran⟩
  cases isProgram
  cases ran
  have volume : (Fs.evict system.store blockno).volume = system.store.volume := by
    rw [Store.volume, Clean.blocks_evict sharing.clean]
    rfl
  exact sharing.without rfl rfl rfl volume sharing.writers fun pid => (List.append_nil _).symm

theorem argfd_shared (shared : (argfd process fd).map Prod.snd = some file) :
    ∃ slot, argfd process fd = some (slot, file) := by
  rcases Option.map_eq_some_iff.mp shared with ⟨⟨slot, other⟩, isFound, rfl⟩
  exact ⟨slot, isFound⟩

section

variable (sharing : Sharing file system)
  (shared : (argfd (system.procs pid) fd).map Prod.snd = some file)
include sharing shared

/-- The system after a read. -/
theorem Sharing.read (stepped : step system (.call pid (.read fd memory address n)) = .next after) :
    Advanced file system (.call pid (.read fd memory address n)) after := by
  rcases call_eq_next stepped with ⟨cwd, _, _, ran⟩
  rcases argfd_shared shared with ⟨slot, isFound⟩
  cases isReadable : (system.ftable file).readable with
  | false =>
    have refused : Wp (fileread file memory address n) system
        fun result final => result.1 = -1 ∧ final = system := by
      simp only [fileread, wp_bind, wp_get, isReadable, if_true, wp_pure, and_self]
    rcases wp_false_iff.mp refused with ⟨⟨value, buffer⟩, moved, ranRead, rfl, isMoved⟩
    have unchanged : Wp (Call.run pid cwd (.read fd memory address n)) system
        fun _ final => final = moved := by
      simp only [Call.run, sysRead, wp_discard, wp_bind, wp_get, isFound]
      rw [wp_of_run ranRead, wp_pure]
    rw [wp_of_run ran, isMoved] at unchanged
    rw [unchanged]
    apply sharing.without _ rfl rfl rfl sharing.writers fun pid' => (List.append_nil _).symm
    rw [chunkOf, ranRead]
    rfl
  | true =>
    have moves : Wp (fileread file memory address n) system _ _ :=
      sharing.kept.exact.fileread_moves sharing.isInode isReadable sharing.inside
    rcases wp_false_iff.mp moves with ⟨⟨value, buffer⟩, moved, ranRead, r, rfl, within, isMoved⟩
    have isAfter : Wp (Call.run pid cwd (.read fd memory address n)) system
        fun _ final => final = moved := by
      simp only [Call.run, sysRead, wp_discard, wp_bind, wp_get, isFound]
      rw [wp_of_run ranRead, wp_pure]
    rw [wp_of_run ran, isMoved] at isAfter
    have entry : after.ftable file =
        { system.ftable file with off := (system.ftable file).off + r } := by
      rw [isAfter]
      exact System.ftable_withFile_self
    have sameInum : after.inumOf file = system.inumOf file := by
      rw [System.inumOf, entry, isAfter]
      show (Store.icache (Store.unlocking _ _) _).inum = _
      rw [Store.inum_unlocking, Store.inum_locking]
      rfl
    have sameVolume : after.store.volume = system.store.volume := by
      rw [isAfter]
      rfl
    have sameProcs : after.procs = system.procs := by
      rw [isAfter]
      rfl
    have sameRemaining : ∀ pid', remaining after pid' = remaining system pid' :=
      fun pid' => remaining_of_pending (by rw [sameProcs])
    have isChunk : chunkOf file system (.call pid (.read fd memory address n)) =
        if 0 < (r : Int) then some ⟨pid, (system.ftable file).off, r, none⟩ else none := by
      rw [chunkOf, ranRead]
      rfl
    by_cases transfers : 0 < (r : Int)
    · rw [if_pos transfers] at isChunk
      refine ⟨?_, ?_, ?_, ?_, ?_, ?_, ?_⟩
      · rw [entry]
        exact sharing.isInode
      · rw [entry, System.sizeOf, sameInum, sameVolume]
        exact within
      · rw [Writers, sameProcs]
        exact sharing.writers
      · rw [isChunk, entry]
        rfl
      · rw [isChunk]
        rintro chunk ⟨⟩
        exact ⟨rfl, fun _ impossible => by cases impossible⟩
      · rw [isChunk, System.contentsOf, sameInum, sameVolume]
        rfl
      · intro pid'
        have noBytes : ((some (Chunk.mk pid (system.ftable file).off r none)).toList.filter
            (·.pid = pid')).flatMap Chunk.bytes = [] := by
          by_cases isPid : pid = pid'
          · simp [isPid, Chunk.bytes]
          · simp [isPid]
        rw [isChunk, noBytes, sameRemaining pid', List.nil_append]
        exact (List.append_nil _).symm
    · rw [if_neg transfers] at isChunk
      have nothing : r = 0 := by omega
      rw [nothing] at entry
      apply sharing.without isChunk entry sameInum sameVolume
      · rw [Writers, sameProcs]
        exact sharing.writers
      · intro pid'
        rw [sameRemaining pid']
        exact (List.append_nil _).symm

/-- A write begins. -/
theorem Sharing.write (small : n < 2 ^ 31) (maps : memory.Maps address n.toNat)
    (stepped : step system (.call pid (.write fd memory address n)) = .next after) :
    Advanced file system (.call pid (.write fd memory address n)) after := by
  rcases call_eq_next stepped with ⟨cwd, _, isIdle, ran⟩
  rcases argfd_shared shared with ⟨slot, isFound⟩
  have noChunk : chunkOf file system (.call pid (.write fd memory address n)) = none := rfl
  cases isWritable : (system.ftable file).writable with
  | false =>
    have unchanged : Wp (Call.run pid cwd (.write fd memory address n)) system
        fun _ final => final = system := by
      simp only [Call.run, sysWrite, wp_discard, wp_bind, wp_get, isFound, isWritable, if_true,
        wp_pure]
    rw [wp_of_run ran] at unchanged
    rw [unchanged]
    apply sharing.without noChunk rfl rfl rfl sharing.writers
    intro pid'
    simp [requested, isWritable]
  | true =>
    have isAfter : Wp (Call.run pid cwd (.write fd memory address n)) system
        fun _ final => final = system.withProcess pid { system.procs pid with
          pending := .writing file memory address n 0 } := by
      simp only [Call.run, sysWrite, wp_discard, wp_bind, wp_get, isFound, isWritable,
        Bool.true_eq_false, if_false, sharing.isInode, wp_setProcess, wp_pure]
    rw [wp_of_run ran] at isAfter
    rw [isAfter]
    refine sharing.without noChunk rfl rfl rfl ?_ ?_
    · exact sharing.writers.withProcess
        (Or.inr ⟨memory, address, n, 0, rfl, small, maps, Nat.zero_le _⟩)
    · intro other
      by_cases isPid : other = pid
      · have begun : ((system.withProcess pid { system.procs pid with
            pending := .writing file memory address n 0 }).procs pid).pending =
            .writing file memory address n 0 := by
          rw [System.procs_withProcess_self]
        rw [isPid, remaining_writing begun, remaining_idle isIdle, List.nil_append, requested,
          if_pos ⟨rfl, isWritable⟩, Nat.add_zero, userBytes_mod, Nat.cast_zero,
          Int.sub_zero]
      · have notCaller : ¬ (pid = other ∧ (system.ftable file).writable = true) :=
          fun both => isPid both.1.symm
        rw [remaining_of_ne isPid, requested, if_neg notCaller, List.append_nil]

end

theorem Sharing.resume (sharing : Sharing file system) (fits : Shares file system (.resume pid))
    (stepped : step system (.resume pid) = .next after) :
    Advanced file system (.resume pid) after := by
  rcases step_eq_next stepped with ⟨program, isProgram, ran⟩
  rcases sharing.writers pid with idle | ⟨memory, address, n, i, isPending, small, maps, started⟩
  · rw [Action.program, idle] at isProgram
    cases isProgram
  rw [Action.program, isPending] at isProgram
  cases isProgram
  have left := remaining_writing isPending
  rw [Shares, isPending] at fits
  by_cases more : (i : Int) < n
  · obtain ⟨n1, isN1⟩ : ∃ n1, n1 = min (n - i).toNat maxChunk := ⟨_, rfl⟩
    have chunk : maxChunk = 3072 := by decide
    have most : MAXFILE * BSIZE = 274432 := by decide
    have inside := sharing.inside
    rcases (sharing.kept.settled pid).writing _ _ _ _ _ isPending with ⟨_, _, writable⟩
    simp only [← isN1] at fits
    rw [continueWrite, if_pos more, ← isN1, run_bind_eq_ok] at ran
    rcases ran with ⟨written, middle, ranChunk, ranRest⟩
    have round : Wp (filewriteChunk file memory ((address + i) % 2 ^ 64) n1) system _ _ :=
      sharing.kept.exact.filewriteChunk_round sharing.isInode writable (by omega)
    rw [wp_of_run ranChunk] at round
    rcases round with ⟨_, same, sameProcs, _, accepted⟩
    have fitting : ¬ Unwritable (system.sizeOf file) (system.ftable file).off n1 := by
      rw [Unwritable]
      omega
    rcases accepted fitting with ⟨isWritten, _, storing⟩
    have stored := storing (maps.part (by omega))
    have isAfter : Wp (if written < 0 then
          setProcess pid fun process => { process with pending := .idle }
        else if written ≠ n1 then throw (.panic .shortFilewrite)
        else setProcess pid fun process =>
          { process with pending := .writing file memory address n (i + n1) }) middle
        fun _ final => final = middle.withProcess pid { middle.procs pid with
          pending := .writing file memory address n (i + n1) } := by
      rw [if_neg (by omega), if_neg (by omega), wp_setProcess]
    rw [wp_of_run ranRest] at isAfter
    have isChunk : chunkOf file system (.resume pid) = some ⟨pid, (system.ftable file).off, n1,
        some (userBytes memory ((address + i) % 2 ^ 64) n1)⟩ := by
      rw [chunkOf, isPending]
      simp only [if_pos more, ← isN1, ranChunk, isWritten]
      rw [if_pos (by omega), Int.toNat_natCast]
    have entry := same.entry
    have stillInside := stored.inside inside
    rw [isAfter]
    refine ⟨?_, stillInside, ?_, ?_, ?_, ?_, ?_⟩
    · show (middle.ftable file).type = _
      rw [entry]
      exact sharing.isInode
    · apply Writers.withProcess
      · rw [Writers, sameProcs]
        exact sharing.writers
      · exact Or.inr ⟨memory, address, n, i + n1, rfl, small, maps, by omega⟩
    · rw [isChunk]
      show (middle.ftable file).off = _
      rw [stored.off, length_userBytes]
      rfl
    · rw [isChunk]
      rintro chunk ⟨⟩
      refine ⟨rfl, ?_⟩
      rintro bytes ⟨⟩
      exact length_userBytes ..
    · rw [isChunk]
      exact stored.contents
    · intro other
      rw [isChunk, requested_resume, List.append_nil]
      by_cases isPid : other = pid
      · have further : ((middle.withProcess pid { middle.procs pid with
            pending := .writing file memory address n (i + n1) }).procs pid).pending =
            .writing file memory address n (i + n1) := by
          rw [System.procs_withProcess_self]
        have shifted : (address + ↑(i + n1)) % 2 ^ 64 =
            ((address + i) % 2 ^ 64 + n1) % 2 ^ 64 := by omega
        have count : (n - i).toNat = n1 + (n - ↑(i + n1)).toNat := by omega
        rw [isPid, left, remaining_writing further, shifted, count, ← userBytes_append]
        simp [Chunk.bytes]
      · have notOurs : ¬ pid = other := fun same => isPid same.symm
        rw [remaining_of_ne isPid, remaining, remaining, sameProcs]
        simp [notOurs]
  · rw [continueWrite, if_neg more] at ran
    have isAfter : Wp (setProcess pid fun process => { process with pending := .idle }) system
        fun _ final => final = system.withProcess pid { system.procs pid with pending := .idle } := by
      rw [wp_setProcess]
    rw [wp_of_run ran] at isAfter
    rw [isAfter]
    have noChunk : chunkOf file system (.resume pid) = none := by
      rw [chunkOf, isPending]
      exact if_neg more
    refine sharing.without noChunk rfl rfl rfl ?_ ?_
    · exact sharing.writers.withProcess (Or.inl rfl)
    · intro other
      rw [requested_resume, List.append_nil]
      by_cases isPid : other = pid
      · have nothing : (n - i).toNat = 0 := by omega
        rw [isPid, left, nothing, remaining, System.procs_withProcess_self]
        rfl
      · exact remaining_of_ne isPid

theorem whole_of_maps {count : Nat}
    (maps : memory.Maps address count) {tot n : Nat} (inside : n ≤ count) (off fuel : Nat) :
    (Source.user memory address).Whole tot off n fuel := by
  induction fuel generalizing tot off with
  | zero => exact trivial
  | succ fuel ih =>
    intro more
    have copied : (Source.user memory address).reach tot (min (n - tot) (BSIZE - off % BSIZE)) =
        min (n - tot) (BSIZE - off % BSIZE) := maps.reach (by omega)
    simp only [if_pos copied]
    exact ih _

variable (sharing : Sharing file system)
include sharing

theorem Sharing.wholeCopies (action : Action) : WholeCopies system action := by
  cases action with
  | call pid request | evict blockno => exact trivial
  | resume pid =>
    rcases sharing.writers pid with idle | ⟨memory, address, n, i, isPending, _, maps, _⟩
    · rw [WholeCopies, idle]
      exact trivial
    · rw [WholeCopies, isPending]
      intro more
      exact whole_of_maps (maps.part (by omega)) (Nat.le_refl _) _ _

theorem Sharing.advanced (shares : Shares file system action) (stepped : step system action = .next after) :
    Advanced file system action after := by
  cases action with
  | call pid request =>
    cases request with
    | read fd memory address n => exact sharing.read shares stepped
    | write fd memory address n =>
      rcases shares with ⟨isFile, small, maps⟩
      exact sharing.write isFile small maps stepped
    | _ => cases shares
  | resume pid => exact sharing.resume shares stepped
  | evict blockno => exact sharing.evict stepped

theorem Sharing.next (advanced : Advanced file system action after) (stepped : step system action = .next after) :
    Sharing file after := by
  have kept : Kept after ∧ Advances False system.store after.store :=
    sharing.kept.next False.elim False.elim stepped
  exact ⟨kept.1, step_clean sharing.clean (sharing.wholeCopies action) stepped, advanced.isInode,
    advanced.inside, advanced.writers⟩

end

/-! ## Runs -/

/-- What a schedule does to the file, in terms of its chunks. -/
structure Transferred (file : FileIndex) (start final : System) (chunks : List Chunk) : Prop where
  off : (final.ftable file).off = (start.ftable file).off + (chunks.map Chunk.length).sum
  consecutive : Consecutive (start.ftable file).off chunks
  lengths : ∀ chunk ∈ chunks, ∀ bytes ∈ chunk.data, bytes.length = chunk.length
  contents : final.contentsOf file = chunks.foldl Chunk.apply (start.contentsOf file)

section

variable {file : FileIndex} {start middle final : System} {chunks : List Chunk}

theorem Consecutive.concat {chunk : Chunk} (consecutive : Consecutive off chunks)
    (isStart : chunk.start = off + (chunks.map Chunk.length).sum) :
    Consecutive off (chunks ++ [chunk]) := by
  induction chunks generalizing off with
  | nil => exact ⟨isStart, trivial⟩
  | cons first rest ih =>
    rcases consecutive with ⟨isFirst, others⟩
    refine ⟨isFirst, ih others ?_⟩
    rw [isStart, List.map_cons, List.sum_cons, Nat.add_assoc]

/-- A step adds its chunk to those before it. -/
theorem Transferred.next (transferred : Transferred file start middle chunks)
    (advanced : Advanced file middle action final) :
    Transferred file start final (chunks ++ (chunkOf file middle action).toList) := by
  have off := advanced.off
  have contents := advanced.contents
  have own := advanced.start
  cases isChunk : chunkOf file middle action with
  | none =>
    rw [isChunk] at off contents
    rw [Option.toList_none, List.append_nil]
    exact ⟨off.trans transferred.off, transferred.consecutive, transferred.lengths,
      contents.trans transferred.contents⟩
  | some chunk =>
    rw [isChunk] at off contents own
    rcases own chunk rfl with ⟨isStart, ownLength⟩
    rw [Option.toList_some]
    refine ⟨?_, transferred.consecutive.concat (isStart.trans transferred.off), ?_, ?_⟩
    · rw [off, transferred.off, List.map_append, List.sum_append, Nat.add_assoc]
      rfl
    · intro other isOther
      rcases List.mem_append.mp isOther with isEarlier | isLast
      · exact transferred.lengths other isEarlier
      · rw [List.mem_singleton.mp isLast]
        exact ownLength
    · rw [contents, transferred.contents, List.foldl_append]
      rfl

theorem Consecutive.pairwise (consecutive : Consecutive off chunks) :
    (∀ chunk ∈ chunks, off ≤ chunk.start) ∧
      chunks.Pairwise fun first second => first.start + first.length ≤ second.start := by
  induction chunks generalizing off with
  | nil => exact ⟨fun _ impossible => (nomatch impossible), List.Pairwise.nil⟩
  | cons chunk rest ih =>
    rcases consecutive with ⟨rfl, others⟩
    rcases ih others with ⟨behind, apart⟩
    constructor
    · intro other isOther
      rcases List.mem_cons.mp isOther with rfl | isLater
      · exact Nat.le_refl _
      · exact Nat.le_trans (Nat.le_add_right _ _) (behind other isLater)
    · exact List.Pairwise.cons behind apart

theorem Consecutive.foldl_apply {contents : List UInt8}
    (consecutive : Consecutive off chunks) (inside : off ≤ contents.length)
    (lengths : ∀ chunk ∈ chunks, ∀ bytes ∈ chunk.data, bytes.length = chunk.length)
    (writes : ∀ chunk ∈ chunks, chunk.data.isSome = true) :
    chunks.foldl Chunk.apply contents = overwrite contents off (chunks.flatMap Chunk.bytes) := by
  induction chunks generalizing off contents with
  | nil => exact (overwrite_nil contents off).symm
  | cons chunk rest ih =>
    rcases consecutive with ⟨isStart, others⟩
    rcases Option.isSome_iff_exists.mp (writes chunk List.mem_cons_self) with ⟨data, isData⟩
    have length := lengths chunk List.mem_cons_self data isData
    have applied : chunk.apply contents = overwrite contents off data := by
      rw [Chunk.apply, isData, isStart]
    rw [← length] at others
    have still : off + data.length ≤ (overwrite contents off data).length := by
      rw [length_overwrite inside]
      exact Nat.le_max_right _ _
    rw [List.foldl_cons, applied, ih others still
      (fun other isLater => lengths other (List.mem_cons_of_mem _ isLater))
      (fun other isLater => writes other (List.mem_cons_of_mem _ isLater)),
      overwrite_append inside, List.flatMap_cons, Chunk.bytes, isData]
    rfl

end

end Fs
end Xv6
