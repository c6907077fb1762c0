import Xv6.Fs.Runs

namespace Xv6
namespace Fs

open Foundation Function Store
open Buffer (Block Pid Stop)

/-!
# Whole reads and writes of a file

`fileread` and `filewrite` for a file on an inode, from the call to its return.
A transfer between an inode and user memory that is mapped is the same as one
with kernel memory, so the byte array of an inode serves for both.
-/

/-! ## User memory that is mapped -/

namespace UserMemory

/-- The byte at an address, if its page is mapped. -/
def byteAt (memory : UserMemory) (va : Nat) : Option UInt8 :=
  (memory (va / PGSIZE)).map fun page => page (va % PGSIZE)

/-- The pages of a range are mapped. -/
def Maps (memory : UserMemory) (address count : Nat) : Prop :=
  ∀ i, i < count → (memory ((address + i) % 2 ^ 64 / PGSIZE)).isSome = true

end UserMemory

variable {memory : UserMemory} {address length count position size : Nat}

theorem mapped_of_maps {fuel : Nat} (inRange : address < 2 ^ 64)
    (maps : memory.Maps address length) (enough : length ≤ fuel) :
    mapped memory address length fuel = length := by
  induction fuel generalizing address length with
  | zero =>
    rw [Nat.le_zero.mp enough]
    rfl
  | succ fuel ih =>
    rw [mapped]
    by_cases nothing : length = 0
    · rw [if_pos nothing, nothing]
    · have first := maps 0 (Nat.pos_of_ne_zero nothing)
      rw [Nat.add_zero, Nat.mod_eq_of_lt inRange] at first
      rw [if_neg nothing, if_pos first]
      generalize isCount : min (PGSIZE - address % PGSIZE) length = n
      have below := Nat.mod_lt address (by decide : 0 < PGSIZE)
      have rest : UserMemory.Maps memory ((address + n) % 2 ^ 64) (length - n) := by
        intro i isRest
        have same : ((address + n) % 2 ^ 64 + i) % 2 ^ 64 = (address + (n + i)) % 2 ^ 64 := by
          omega
        rw [same]
        exact maps (n + i) (by omega)
      have done := ih (Nat.mod_lt _ (by decide)) rest (by omega)
      dsimp only
      rw [done]
      omega

variable {bytes : List UInt8}

namespace UserMemory

section

variable (maps : memory.Maps address count) (inside : position + length ≤ count)
include maps inside

theorem Maps.part : memory.Maps ((address + position) % 2 ^ 64) length := by
  intro i isPart
  have same : ((address + position) % 2 ^ 64 + i) % 2 ^ 64 = (address + (position + i)) % 2 ^ 64 := by
    omega
  rw [same]
  exact maps (position + i) (by omega)

theorem Maps.reach : mapped memory ((address + position) % 2 ^ 64) length length = length :=
  mapped_of_maps (Nat.mod_lt _ (by decide)) (maps.part inside) (Nat.le_refl length)

end

theorem byteAt_write (memory : UserMemory) (address : Nat) (bytes : List UInt8) (va : Nat) :
    (memory.write address bytes).byteAt va = (memory.byteAt va).map fun old =>
      bytes.getD ((va + 2 ^ 64 - address % 2 ^ 64) % 2 ^ 64) old := by
  have split : va / PGSIZE * PGSIZE + va % PGSIZE = va := Nat.div_add_mod' va PGSIZE
  rw [byteAt, byteAt, write, Option.map_map, Option.map_map]
  simp only [comp_def, split]

theorem byteAt_write_inside {i : Nat} (inside : i < bytes.length) (short : bytes.length ≤ 2 ^ 64)
    (maps : memory.Maps address bytes.length) :
    (memory.write address bytes).byteAt ((address + i) % 2 ^ 64) = bytes[i]? := by
  have position : ((address + i) % 2 ^ 64 + 2 ^ 64 - address % 2 ^ 64) % 2 ^ 64 = i := by omega
  rcases Option.isSome_iff_exists.mp (maps i inside) with ⟨page, isPage⟩
  rw [byteAt_write, position, byteAt, isPage, Option.map_some, Option.map_some, List.getD_eq_getElem?_getD,
    List.getElem?_eq_getElem inside, Option.getD_some]

theorem byteAt_write_outside {va : Nat}
    (inRange : va < 2 ^ 64) (outside : ∀ i, i < bytes.length → va ≠ (address + i) % 2 ^ 64) :
    (memory.write address bytes).byteAt va = memory.byteAt va := by
  have behind : bytes.length ≤ (va + 2 ^ 64 - address % 2 ^ 64) % 2 ^ 64 := by
    apply Nat.not_lt.mp
    intro inside
    apply outside _ inside
    omega
  rw [byteAt_write]
  have same : (fun old => bytes.getD ((va + 2 ^ 64 - address % 2 ^ 64) % 2 ^ 64) old) = id := by
    funext old
    rw [List.getD_eq_getElem?_getD, List.getElem?_eq_none behind, Option.getD_none, id]
  rw [same, Option.map_id, id]

end UserMemory

/-- The loop of `writei` from mapped memory does what it does for the kernel. -/
theorem writeiFrom_of_maps
    (maps : memory.Maps address count) (ip : Index) {tot n : Nat} (inside : n ≤ count)
    (off fuel : Nat) :
    writeiFrom ip (.user memory address) tot off n fuel =
      writeiFrom ip (.kernel (Source.user memory address).byte) tot off n fuel := by
  induction fuel generalizing tot off with
  | zero => rfl
  | succ fuel ih =>
    rw [writeiFrom, writeiFrom]
    by_cases more : tot < n
    · have reaches : Source.reach (.user memory address) tot (min (n - tot) (BSIZE - off % BSIZE)) =
          Source.reach (.kernel (Source.user memory address).byte) tot
            (min (n - tot) (BSIZE - off % BSIZE)) :=
        maps.reach (by omega)
      have copies : Source.copy (.kernel (Source.user memory address).byte) tot off =
          Source.copy (.user memory address) tot off := rfl
      simp only [if_pos more, reaches, copies, ih]
    · rw [if_neg more, if_neg more]

theorem writei_of_maps {n : Nat} (maps : memory.Maps address n) (ip : Index) (off : Nat) :
    writei ip (.user memory address) off n =
      writei ip (.kernel (Source.user memory address).byte) off n := by
  simp only [writei, writeiFrom_of_maps maps ip (Nat.le_refl n)]

/-! ## `fileread` -/

variable {n : Int}

section

variable {system : System} {file : FileIndex}

/-- The number of the inode that a file is on. -/
def System.inumOf (system : System) (file : FileIndex) : Nat :=
  (system.store.icache (system.ftable file).ip).inum

/-- The size of the inode that a file is on. -/
def System.sizeOf (system : System) (file : FileIndex) : Nat :=
  (system.store.volume.dinodes (system.inumOf file)).size.toNat

theorem Exact.sizeOf_le (exact : Exact 0 system) (isInode : (system.ftable file).type = .inode) :
    system.sizeOf file ≤ MAXFILE * BSIZE :=
  (exact.consistent.whole.holeFree _ (exact.opened file (Or.inl isInode)).1).bounded

theorem Store.view_locking (store : Store) (ip : Index) :
    (store.locking ip).view ip = store.volume := by
  rw [view_eq_volume]
  · rfl
  · rw [Store.locking, icache_withInode_self]
    rfl

theorem Store.dinode_locking (store : Store) (ip : Index) :
    ((store.locking ip).icache ip).dinode = store.volume.dinodes (store.icache ip).inum := by
  rw [Store.locking, icache_withInode_self]

section

variable (exact : Exact 0 system) (isInode : (system.ftable file).type = .inode)
  (isReadable : (system.ftable file).readable = true)
include exact isInode isReadable

/-- What `fileread` does when it is asked for `n` bytes, as `readi` counts
them. -/
theorem Exact.fileread_wp
    (isCount : count = readCount (system.sizeOf file) (system.ftable file).off (n % 2 ^ 32).toNat)
    (maps : memory.Maps address count) :
    Wp (fileread file memory address n) system
      fun result after =>
        result.1 = count ∧
        result.2 = memory.write address (system.store.volume.bytes (system.inumOf file)
          (system.ftable file).off count) ∧
        after = (system.withFile file { system.ftable file with
          off := ((system.ftable file).off + count) % 2 ^ 32 }).withStore
            ((system.store.locking (system.ftable file).ip).unlocking (system.ftable file).ip) := by
  have typed := (exact.opened file (Or.inl isInode)).1
  have isView := system.store.view_locking (system.ftable file).ip
  have size : ((system.store.locking (system.ftable file).ip).icache
      (system.ftable file).ip).dinode.size.toNat = system.sizeOf file := by
    rw [dinode_locking]
    rfl
  have reads : Wp (readi (system.ftable file).ip (.user memory address) (system.ftable file).off
      (n % 2 ^ 32).toNat) (system.store.locking (system.ftable file).ip)
      fun result after => after = system.store.locking (system.ftable file).ip ∧
        result = (count, system.store.volume.bytes (system.inumOf file) (system.ftable file).off
          count) := by
    apply (readi_wp _ _ (.user memory address) (exact.offsets file) (by omega)).imp
    · rintro result after ⟨isAfter, _, whole⟩
      rw [size, ← isCount] at whole
      rcases whole fun _ _ inside => maps.reach inside with ⟨isResult, isBytes⟩
      rw [isView, isResult, inum_locking] at isBytes
      exact ⟨isAfter, Prod.ext isResult isBytes⟩
    · rw [isView]
      exact exact.consistent.whole.owned
    · rw [isView, inum_locking]
      exact exact.consistent.whole.holeFree _ typed
  apply (exact.fileread_of_readi isInode isReadable reads).imp
  rintro result after ⟨read, rfl, rfl, isAfter⟩
  exact ⟨rfl, rfl, isAfter⟩

omit isReadable in
/-- `readi` of an open file changes nothing, and does not read beyond its end. -/
theorem Exact.readi_counts :
    Wp (readi (system.ftable file).ip (.user memory address) (system.ftable file).off
      (n % 2 ^ 32).toNat) (system.store.locking (system.ftable file).ip)
      fun result after => after = system.store.locking (system.ftable file).ip ∧ result.1 ≤
        readCount (system.sizeOf file) (system.ftable file).off (n % 2 ^ 32).toNat := by
  have isView := system.store.view_locking (system.ftable file).ip
  have nFits : (n % 2 ^ 32).toNat < 2 ^ 32 := by omega
  have size : ((system.store.locking (system.ftable file).ip).icache
      (system.ftable file).ip).dinode.size.toNat = system.sizeOf file := by
    rw [dinode_locking]
    rfl
  rw [← size]
  apply (readi_wp _ _ (.user memory address) (exact.offsets file) nFits).imp
  · exact fun _ _ both => ⟨both.1, both.2.1⟩
  · rw [isView]
    exact exact.consistent.whole.owned
  · rw [isView, inum_locking]
    exact exact.consistent.whole.holeFree _ (exact.opened file (Or.inl isInode)).1

/-- `fileread` moves the offset by what it returns, and not behind the end of
the file. -/
theorem Exact.fileread_moves (inside : (system.ftable file).off ≤ system.sizeOf file) :
    Wp (fileread file memory address n) system
      fun result after => ∃ r : Nat, result.1 = r ∧ (system.ftable file).off + r ≤ system.sizeOf file ∧
        after = (system.withFile file { system.ftable file with
          off := (system.ftable file).off + r }).withStore
            ((system.store.locking (system.ftable file).ip).unlocking (system.ftable file).ip) := by
  have holeFree := exact.consistent.whole.holeFree _ (exact.opened file (Or.inl isInode)).1
  have atMost : system.sizeOf file < 2 ^ 32 := by
    have small : MAXFILE * BSIZE < 2 ^ 31 := by decide
    have isBounded : system.sizeOf file ≤ MAXFILE * BSIZE := holeFree.bounded
    omega
  apply (exact.fileread_of_readi isInode isReadable (exact.readi_counts isInode)).imp
  rintro result after ⟨read, isRead, rfl, isAfter⟩
  have within : (system.ftable file).off + read.1 ≤ system.sizeOf file := by
    rw [readCount] at isRead
    split at isRead
    · omega
    · omega
  rw [Nat.mod_eq_of_lt (by omega)] at isAfter
  exact ⟨read.1, rfl, within, isAfter⟩

end

/-- The number of bytes of a file that there are to read. -/
def readableBytes (n : Int) (size off : Nat) : Nat :=
  min n.toNat (size - off)

/-- `readi` is asked for `n` modulo `2 ^ 32` bytes.  If `n` is negative this is
more than any file has, and the read is refused only if the sum with the offset
wraps around. -/
theorem readCount_eq_iff {off : Nat} (offFits : off < 2 ^ 32)
    (bounded : size ≤ MAXFILE * BSIZE) (isInt : -2 ^ 31 ≤ n ∧ n < 2 ^ 31) :
    readCount size off (n % 2 ^ 32).toNat = readableBytes n size off ↔
      0 ≤ n ∨ -n ≤ off ∨ size ≤ off := by
  have small : MAXFILE * BSIZE < 2 ^ 31 := by decide
  rw [readCount, readableBytes]
  constructor
  · intro same
    split at same
    · omega
    · omega
  · intro asked
    split
    · omega
    · omega

/-- A read delivers the bytes of the file that there are, up to as many as it was
asked for.  It returns their number and moves the offset behind them, and nothing
else in the memory and on the volume is changed. -/
structure Delivered (file : FileIndex) (memory : UserMemory) (address : Nat) (n : Int)
    (system : System) (result : Int × UserMemory) (after : System) : Prop where
  returned : result.1 = readableBytes n (system.sizeOf file) (system.ftable file).off
  bytes : ∀ i, i < readableBytes n (system.sizeOf file) (system.ftable file).off →
    result.2.byteAt ((address + i) % 2 ^ 64) =
      some (system.store.volume.byte (system.inumOf file) ((system.ftable file).off + i))
  others : ∀ va, va < 2 ^ 64 →
    (∀ i, i < readableBytes n (system.sizeOf file) (system.ftable file).off →
      va ≠ (address + i) % 2 ^ 64) →
    result.2.byteAt va = memory.byteAt va
  off : (after.ftable file).off =
    (system.ftable file).off + readableBytes n (system.sizeOf file) (system.ftable file).off
  volume : after.store.volume = system.store.volume

/-- `fileread` into memory that is mapped delivers what it was asked for, except
for a negative number of bytes at an offset inside the file that the number does
not take below zero. -/
theorem fileread_delivers {memory : UserMemory} {address : Nat} {n : Int} (exact : Exact 0 system)
    (isInode : (system.ftable file).type = .inode)
    (isReadable : (system.ftable file).readable = true) (isInt : -2 ^ 31 ≤ n ∧ n < 2 ^ 31)
    (maps : memory.Maps address
      (readCount (system.sizeOf file) (system.ftable file).off (n % 2 ^ 32).toNat)) :
    Wp (fileread file memory address n) system
      fun result after => Delivered file memory address n system result after ↔
        (0 ≤ n ∨ -n ≤ (system.ftable file).off ∨ system.sizeOf file ≤ (system.ftable file).off) := by
  have offFits := exact.offsets file
  have holeFree := exact.consistent.whole.holeFree _ (exact.opened file (Or.inl isInode)).1
  have isCount := readCount_eq_iff offFits holeFree.bounded isInt
  have bounded : system.sizeOf file ≤ MAXFILE * BSIZE := holeFree.bounded
  have small : MAXFILE * BSIZE < 2 ^ 31 := by decide
  apply (exact.fileread_wp isInode isReadable rfl maps).imp
  rintro ⟨r, memory'⟩ after ⟨isResult, isMemory, isAfter⟩
  dsimp only at isResult isMemory
  constructor
  · intro delivered
    have returned : r = readableBytes n (system.sizeOf file) (system.ftable file).off :=
      delivered.returned
    exact isCount.mp (Int.ofNat_inj.mp (isResult.symm.trans returned))
  · intro asked
    have same := isCount.mpr asked
    change readCount (system.sizeOf file) _ _ = readableBytes _ (system.sizeOf file) _ at same
    rw [same] at isResult isMemory isAfter maps
    obtain ⟨k, isK⟩ : ∃ k, k = readableBytes n (system.sizeOf file) (system.ftable file).off :=
      ⟨_, rfl⟩
    have atMost : k ≤ system.sizeOf file - (system.ftable file).off := by
      rw [isK]
      exact Nat.min_le_right _ _
    have length := system.store.volume.length_bytes (system.inumOf file) (system.ftable file).off k
    refine ⟨isResult, ?_, ?_, ?_, ?_⟩
    · intro i inside
      rw [← isK] at inside isMemory maps
      rw [← length] at maps
      dsimp only
      rw [isMemory, UserMemory.byteAt_write_inside (by rw [length]; exact inside) (by omega) maps]
      rw [Volume.bytes, List.getElem?_map, List.getElem?_range inside, Option.map_some]
    · intro va inRange outside
      rw [← isK] at isMemory outside
      dsimp only
      rw [isMemory]
      apply UserMemory.byteAt_write_outside inRange
      rw [length]
      exact outside
    · have noWrap : ((system.ftable file).off + k) % 2 ^ 32 = (system.ftable file).off + k := by
        omega
      rw [← isK] at isAfter ⊢
      rw [isAfter, noWrap]
      show ((system.withFile file _).ftable file).off = _
      rw [System.ftable_withFile_self]
    · rw [isAfter]
      rfl

end

/-- The first file of the table. -/
def Sample.file : FileIndex :=
  ⟨0, by decide⟩

/-- One of the small directories is opened. -/
def openDirectory : List Action :=
  [.call 0 (.open (some [97]) O_RDONLY)]

/-- A page of zeros everywhere. -/
def Sample.zeros : UserMemory :=
  fun _ => some fun _ => 0

/-- A read of the first 20 bytes of a directory of three entries. -/
theorem fileread_delivers_part : ∃ opened, exec step Sample.system openDirectory = .next opened ∧
    Wp (fileread Sample.file Sample.zeros 4090 20) opened
      fun result after => result.1 = 20 ∧ (after.ftable Sample.file).off = 20 := by
  have ran : ∃ opened, exec step Sample.system openDirectory = .next opened ∧
      (opened.ftable Sample.file).type = .inode ∧
      (opened.ftable Sample.file).readable = true ∧ (opened.ftable Sample.file).off = 0 ∧
      opened.sizeOf Sample.file = 48 := by
    decide +kernel
  rcases ran with ⟨opened, reached, isInode, isReadable, isOff, isSize⟩
  have count : readableBytes 20 (opened.sizeOf Sample.file) (opened.ftable Sample.file).off = 20 := by
    rw [isSize, isOff]
    decide
  refine ⟨opened, reached, ?_⟩
  apply (fileread_delivers (Sample.starting.kept.run reached).exact isInode isReadable (by decide)
    fun _ _ => rfl).imp
  intro result after delivers
  have delivered := delivers.mpr (Or.inl (by decide))
  have isResult := delivered.returned
  have isMoved := delivered.off
  rw [count] at isResult isMoved
  rw [isOff] at isMoved
  exact ⟨isResult, isMoved⟩

/-- A request for `-1` bytes at the beginning of a file delivers all of it. -/
theorem negative_delivers_all : ∃ opened, exec step Sample.system openDirectory = .next opened ∧
    (opened.ftable Sample.file).type = .inode ∧ (opened.ftable Sample.file).readable = true ∧
    readableBytes (-1) (opened.sizeOf Sample.file) (opened.ftable Sample.file).off = 0 ∧
    Wp (fileread Sample.file Sample.zeros 0 (-1)) opened
      fun result after => result.1 = 48 ∧ result.2.byteAt 0 ≠ Sample.zeros.byteAt 0 ∧
        (after.ftable Sample.file).off = 48 := by
  decide +kernel

/-! ## `filewrite` -/

/-- The loop of `filewrite`.  It gives the number of bytes for which `writei`
has reported success. -/
def filewriteFrom (file : FileIndex) (memory : UserMemory) (address : Nat) (n : Int) :
    (i fuel : Nat) → Sys Nat
  | i, 0 => return i
  | i, fuel + 1 => do
      if (i : Int) < n then
        let n1 := min (n - i).toNat maxChunk
        let written ← filewriteChunk file memory ((address + i) % 2 ^ 64) n1
        if written < 0 then return i
        else if written ≠ n1 then throw (.panic .shortFilewrite)
        else filewriteFrom file memory address n (i + n1) fuel
      else return i

/-- `filewrite` of a file on an inode. -/
def filewrite (file : FileIndex) (memory : UserMemory) (address : Nat) (n : Int) : Sys Int := do
  if ((← get).ftable file).writable = false then return -1
  else
    let i ← filewriteFrom file memory address n 0 n.toNat
    return if (i : Int) = n then n else -1

section

variable (memory : UserMemory) (address : Nat)

/-- The bytes of a user buffer. -/
def userBytes (count : Nat) : List UInt8 :=
  (List.range count).map (Source.user memory address).byte

theorem length_userBytes (count : Nat) : (userBytes memory address count).length = count := by
  rw [userBytes, List.length_map, List.length_range]

theorem userBytes_mod (count : Nat) :
    userBytes memory (address % 2 ^ 64) count = userBytes memory address count := by
  rw [userBytes, userBytes]
  apply List.map_congr_left
  intro position _
  simp only [Source.byte, Nat.mod_add_mod]

theorem userBytes_append (first second : Nat) :
    userBytes memory address first ++ userBytes memory ((address + first) % 2 ^ 64) second =
      userBytes memory address (first + second) := by
  rw [userBytes, userBytes, userBytes, List.range_add, List.map_append, List.map_map]
  congr 1
  apply List.map_congr_left
  intro position _
  have same : ((address + first) % 2 ^ 64 + position) % 2 ^ 64 =
      (address + (first + position)) % 2 ^ 64 := by omega
  simp only [comp_apply, Source.byte, same]

end

/-- The contents of the inode that a file is on. -/
def System.contentsOf (system : System) (file : FileIndex) : List UInt8 :=
  system.store.volume.contents (system.inumOf file)

/-- A file has a part written: its offset is behind the part, and the contents
have it in the place of what was there. -/
structure Stored (file : FileIndex) (system after : System) (bytes : List UInt8) : Prop where
  off : (after.ftable file).off = (system.ftable file).off + bytes.length
  contents : after.contentsOf file =
    overwrite (system.contentsOf file) (system.ftable file).off bytes

variable {store : Store} {ip : Index} {after : System}

section

variable {system : System} {file : FileIndex}

section

variable (consistent : Consistent store) (held : 0 < store.refs ip)
  (typed : (store.nodes (store.icache ip).inum).type ≠ 0) (inOp : store.inOp = true)
include consistent held typed inOp

theorem Consistent.prepared : Prepared (store.locking ip) ip where
  layout := consistent.whole.layout
  inOp := inOp
  inRange := by
    rw [inum_locking]
    exact (consistent.agrees ip).inRange held
  coherent := by
    rw [dinode_locking, inum_locking]
    rfl
  typed := by
    rw [dinode_locking]
    exact typed
  owned := consistent.whole.owned
  holeFree := consistent.whole.holeFree

/-- `writei` into a locked inode that is not a directory, with the contents it
leaves if the buffer is mapped. -/
theorem Consistent.writei_contents
    (kind : (store.nodes (store.icache ip).inum).type ≠ T_DIR) {off n : Nat}
    (offFits : off < 2 ^ 32) (nFits : n < 2 ^ 32) (memory : UserMemory) (address : Nat)
    (isSize : size = (store.volume.dinodes (store.icache ip).inum).size.toNat) :
    Wp (writei ip (.user memory address) off n) (store.locking ip)
      (fun result after =>
        (Unwritable size off n → result = -1 ∧ after.volume = store.volume) ∧
        (¬ Unwritable size off n → result = n ∧ (memory.Maps address n →
          after.volume.contents (store.icache ip).inum =
            overwrite (store.volume.contents (store.icache ip).inum) off
              (userBytes memory address n))))
      fun stop after => stop = .panic .ballocOutOfBlocks ∧ after.Full := by
  have prepared := consistent.prepared held typed inOp
  have isVolume := store.view_locking ip
  have dinode := store.dinode_locking ip
  have inum : ((store.locking ip).icache ip).inum = (store.icache ip).inum :=
    inum_locking ip
  have holeFree : HoleFree store.volume ((store.locking ip).icache ip).inum := by
    rw [inum]
    exact consistent.whole.holeFree _ typed
  have unchanged : ∀ {result : Int} {after : Store}, result = -1 ∧ after = store.locking ip →
      result = -1 ∧ after.volume = store.volume := by
    rintro result after ⟨isResult, rfl⟩
    exact ⟨isResult, rfl⟩
  by_cases maps : memory.Maps address n
  · rw [writei_of_maps maps]
    apply (Fs.writei_wp prepared.editing isVolume holeFree (Or.inl (Source.total_kernel _)) offFits
      nFits).mono
    · rintro result after ⟨refused, accepted⟩
      rw [dinode, ← isSize] at refused accepted
      refine ⟨fun unwritable => unchanged (refused unwritable), fun writable => ?_⟩
      rcases accepted writable with ⟨isResult, written⟩
      have inside : off ≤ size := Nat.le_of_not_lt fun beyond => writable (Or.inl beyond)
      have contents := written.contents (by rw [inum]; exact isSize ▸ inside)
        (written.size_eq prepared)
      rw [inum] at contents
      refine ⟨isResult, fun _ => ?_⟩
      rw [contents, overwrite, length_userBytes]
      rfl
    · exact fun stop after out => ⟨out.2.1, out.2.2.1⟩
  · have notDirectory : ((store.locking ip).icache ip).dinode.type ≠ T_DIR := by
      rw [dinode]
      exact kind
    apply (Fs.writei_wp prepared.editing isVolume holeFree (Or.inr notDirectory) offFits nFits).mono
    · rintro result after ⟨refused, accepted⟩
      rw [dinode, ← isSize] at refused accepted
      exact ⟨fun unwritable => unchanged (refused unwritable),
        fun writable => ⟨(accepted writable).1, fun mapped => absurd mapped maps⟩⟩
    · exact fun stop after out => ⟨out.2.1, out.2.2.1⟩

end

theorem System.length_contentsOf (system : System) (file : FileIndex) :
    (system.contentsOf file).length = system.sizeOf file :=
  Volume.length_bytes ..

/-- Nothing is written. -/
theorem Stored.nothing (off : (after.ftable file).off = (system.ftable file).off)
    (contents : after.contentsOf file = system.contentsOf file) : Stored file system after [] := by
  refine ⟨off, ?_⟩
  rw [overwrite_nil, contents]

theorem Stored.trans {middle : System} {first second : List UInt8}
    (inside : (system.ftable file).off ≤ system.sizeOf file)
    (early : Stored file system middle first) (late : Stored file middle after second) :
    Stored file system after (first ++ second) := by
  rw [← system.length_contentsOf] at inside
  constructor
  · rw [late.off, early.off, List.length_append, Nat.add_assoc]
  · rw [late.contents, early.contents, early.off, overwrite_append inside]

/-- The offset is behind what was written, and not behind the end of the file. -/
theorem Stored.inside (inside : (system.ftable file).off ≤ system.sizeOf file)
    (stored : Stored file system after bytes) : (after.ftable file).off ≤ after.sizeOf file := by
  rw [← system.length_contentsOf] at inside
  rw [← after.length_contentsOf, stored.contents, stored.off, length_overwrite inside]
  exact Nat.le_max_right _ _

/-- The file is the same one, and nothing else is different in the table. -/
def SameFile (file : FileIndex) (system after : System) : Prop :=
  after.ftable = update system.ftable file
      { system.ftable file with off := (after.ftable file).off } ∧
    after.inumOf file = system.inumOf file

theorem Exact.filewriteChunk_round {n1 : Nat} (exact : Exact 0 system)
    (isInode : (system.ftable file).type = .inode) (writable : (system.ftable file).writable = true)
    (small : n1 < 2 ^ 32) :
    Wp (filewriteChunk file memory address n1) system
      (fun written after => Exact 0 after ∧ SameFile file system after ∧ after.procs = system.procs ∧
        (Unwritable (system.sizeOf file) (system.ftable file).off n1 → written = -1 ∧
          Stored file system after []) ∧
        (¬ Unwritable (system.sizeOf file) (system.ftable file).off n1 → written = n1 ∧
          (after.ftable file).off = (system.ftable file).off + n1 ∧
          (memory.Maps address n1 → Stored file system after (userBytes memory address n1))))
      fun stop after => stop = .panic .ballocOutOfBlocks ∧ after.store.Full := by
  have isOpen : (system.ftable file).IsOpen := Or.inl isInode
  have suits := exact.opened file isOpen
  have start : Consistent { system.store with inOp := true } := exact.consistent.unread
  have counts : Wp (writei _ (.user memory address) _ n1) _ _ _ :=
    exact.writei_wp isInode writable small (False.elim : False → _)
  have writes := start.writei_contents (exact.refs_pos isOpen) suits.1 rfl (suits.2 writable)
    (exact.offsets file) small memory address (rfl : system.sizeOf file = _)
  have both := (counts.and writes).mono
    (fun _ _ holds => And.intro holds.1.1 (And.intro holds.1.2.1 (And.intro holds.1.2.2.2 holds.2)))
    fun _ _ stopped => stopped.2
  apply (exact.filewriteChunk_of_writei isOpen both).imp
  rintro written final ⟨after, ⟨ends, refused, accepted⟩, isFinal⟩
  have isOff : (final.ftable file).off = ((system.ftable file).off + written.toNat) % 2 ^ 32 := by
    rw [isFinal]
    show ((system.withFile file _).ftable file).off = _
    rw [System.ftable_withFile_self]
  have isVolume : final.store.volume = after.volume := by
    rw [isFinal]
    rfl
  have same : SameFile file system final := by
    constructor
    · rw [isOff, isFinal]
      rfl
    · have sameInum := ends.inum (system.ftable file).ip (exact.refs_pos isOpen)
      rw [isFinal]
      show (Store.icache _ ((system.withFile file _).ftable file).ip).inum = _
      rw [System.ftable_withFile_self]
      exact sameInum
  refine ⟨?_, same, by rw [isFinal]; rfl, ?_, ?_⟩
  · rw [isFinal]
    exact (exact.seek file (Nat.mod_lt _ (by decide))).withStore ends
  · intro unwritable
    rcases refused unwritable with ⟨isResult, sameVolume⟩
    refine ⟨isResult, Stored.nothing ?_ ?_⟩
    · rw [isOff, isResult]
      exact Nat.mod_eq_of_lt (exact.offsets file)
    · rw [System.contentsOf, same.2, isVolume, sameVolume]
      rfl
  · intro isWritable
    rcases accepted isWritable with ⟨isResult, contents⟩
    have isMoved : (final.ftable file).off = (system.ftable file).off + n1 := by
      rw [isOff, isResult, Int.toNat_natCast]
      apply Nat.mod_eq_of_lt
      exact Nat.lt_of_not_le fun wraps => isWritable (Or.inr (Or.inl wraps))
    refine ⟨isResult, isMoved, fun maps => ⟨?_, ?_⟩⟩
    · rw [isMoved, length_userBytes]
    · rw [System.contentsOf, same.2, isVolume]
      exact contents maps

theorem SameFile.entry (same : SameFile file system after) :
    after.ftable file = { system.ftable file with off := (after.ftable file).off } := by
  have self := congrFun same.1 file
  rw [update_self] at self
  exact self

/-- The number of bytes that `filewrite` writes at an offset inside the file: all
of them, or the chunks before the first one that goes beyond the largest size of
a file. -/
def acceptedBytes (off n : Nat) : Nat :=
  if off + n ≤ MAXFILE * BSIZE then n else (MAXFILE * BSIZE - off) / maxChunk * maxChunk

theorem acceptedBytes_zero {off n : Nat} (bounded : off ≤ MAXFILE * BSIZE)
    (refused : n = 0 ∨ MAXFILE * BSIZE < off + min n maxChunk) : acceptedBytes off n = 0 := by
  have chunk : maxChunk = 3072 := by decide
  have largest : MAXFILE * BSIZE = 274432 := by decide
  rw [chunk, largest] at refused
  rw [acceptedBytes, chunk, largest]
  split
  · omega
  · omega

theorem acceptedBytes_add {off n : Nat} (accepted : off + min n maxChunk ≤ MAXFILE * BSIZE) :
    acceptedBytes off n =
      min n maxChunk + acceptedBytes (off + min n maxChunk) (n - min n maxChunk) := by
  have chunk : maxChunk = 3072 := by decide
  have largest : MAXFILE * BSIZE = 274432 := by decide
  rw [chunk, largest] at accepted
  rw [acceptedBytes, acceptedBytes, chunk, largest]
  split
  · split
    · omega
    · omega
  · split
    · omega
    · omega

/-- The loop of `filewrite` has written a number of bytes.  If the buffer is
mapped as far as it is written then they are stored. -/
structure Looped (file : FileIndex) (memory : UserMemory) (address n : Nat) (system : System)
    (written : Nat) (after : System) : Prop where
  off : (after.ftable file).off = (system.ftable file).off + written
  beyond : system.sizeOf file < (system.ftable file).off → written = 0 ∧
    after.sizeOf file = system.sizeOf file
  stored : (system.ftable file).off ≤ system.sizeOf file →
    memory.Maps address (acceptedBytes (system.ftable file).off n) →
      written = acceptedBytes (system.ftable file).off n ∧
      Stored file system after (userBytes memory address written)
  mapped : (system.ftable file).off ≤ system.sizeOf file → memory.Maps address written →
    memory.Maps address (acceptedBytes (system.ftable file).off n)

end

theorem UserMemory.Maps.append {first second : Nat} (maps : memory.Maps address first)
    (more : memory.Maps ((address + first) % 2 ^ 64) second) :
    memory.Maps address (first + second) := by
  intro i inside
  by_cases early : i < first
  · exact maps i early
  · have late := more (i - first) (by omega)
    have same : ((address + first) % 2 ^ 64 + (i - first)) % 2 ^ 64 = (address + i) % 2 ^ 64 := by
      omega
    rwa [same] at late

namespace Looped

variable {system : System} {file : FileIndex} {n : Nat}

/-- The loop ends without another chunk. -/
theorem nothing (stored : Stored file system after [])
    (isNothing : (system.ftable file).off ≤ system.sizeOf file →
      acceptedBytes (system.ftable file).off n = 0) :
    Looped file memory address n system 0 after where
  off := stored.off
  beyond _ := by
    have contents := congrArg List.length stored.contents
    rw [overwrite_nil, after.length_contentsOf, system.length_contentsOf] at contents
    exact ⟨rfl, contents⟩
  stored inside _ := ⟨(isNothing inside).symm, stored⟩
  mapped inside _ := by
    rw [isNothing inside]
    exact fun i impossible => absurd impossible (Nat.not_lt_zero i)

/-- One more chunk before the rest of the loop. -/
theorem chunk {middle : System} {n1 written : Nat} (isCount : n1 = min n maxChunk)
    (accepted : ¬ Unwritable (system.sizeOf file) (system.ftable file).off n1)
    (isMoved : (middle.ftable file).off = (system.ftable file).off + n1)
    (stored : memory.Maps address n1 → Stored file system middle (userBytes memory address n1))
    (rest : Looped file memory ((address + n1) % 2 ^ 64) (n - n1) middle written after) :
    Looped file memory address n system (n1 + written) after := by
  have fits : (system.ftable file).off + min n maxChunk ≤ MAXFILE * BSIZE := by
    rw [← isCount]
    exact Nat.le_of_not_lt fun large => accepted (Or.inr (Or.inr large))
  have total := acceptedBytes_add fits
  rw [← isCount, ← isMoved] at total
  refine ⟨?_, ?_, ?_, ?_⟩
  · rw [rest.off, isMoved, Nat.add_assoc]
  · exact fun beyond => absurd (Or.inl beyond) accepted
  · intro inside maps
    rw [total] at maps ⊢
    have storedMiddle := stored fun i early => maps i (by omega)
    rcases rest.stored (storedMiddle.inside inside) (maps.part (Nat.le_refl _)) with
      ⟨isWritten, storedRest⟩
    have joined := storedMiddle.trans inside storedRest
    rw [userBytes_append] at joined
    exact ⟨by rw [isWritten], joined⟩
  · intro inside maps
    rw [total]
    have early : memory.Maps address n1 := fun i early => maps i (by omega)
    have storedMiddle := stored early
    exact early.append (rest.mapped (storedMiddle.inside inside) (maps.part (Nat.le_refl _)))

end Looped

section

variable {system : System} {file : FileIndex}

theorem Exact.filewriteFrom_wp {i fuel : Nat}
    (exact : Exact 0 system) (isInode : (system.ftable file).type = .inode)
    (writable : (system.ftable file).writable = true) (started : (i : Int) ≤ n)
    (enough : (n - i).toNat ≤ fuel) :
    Wp (filewriteFrom file memory address n i fuel) system
      (fun final after => i ≤ final ∧ (final : Int) ≤ n ∧
        Looped file memory ((address + i) % 2 ^ 64) (n - i).toNat system (final - i) after)
      fun stop after => stop = .panic .ballocOutOfBlocks ∧ after.store.Full := by
  induction fuel generalizing system i with
  | zero =>
    rw [filewriteFrom, wp_pure, Nat.sub_self]
    refine ⟨Nat.le_refl i, started, Looped.nothing (Stored.nothing rfl rfl) fun inside => ?_⟩
    have bounded := exact.sizeOf_le isInode
    exact acceptedBytes_zero (by omega) (Or.inl (by omega))
  | succ fuel ih =>
    rw [filewriteFrom, wp_ite]
    have bounded := exact.sizeOf_le isInode
    by_cases more : (i : Int) < n
    · rw [if_pos more, wp_bind]
      obtain ⟨n1, isN1⟩ : ∃ n1, n1 = min (n - i).toNat maxChunk := ⟨_, rfl⟩
      have chunk : maxChunk = 3072 := by decide
      rw [← isN1]
      apply (exact.filewriteChunk_round isInode writable (by omega)).imp
      rintro written middle ⟨exactMiddle, same, _, refused, accepted⟩
      by_cases unwritable : Unwritable (system.sizeOf file) (system.ftable file).off n1
      · rcases refused unwritable with ⟨isResult, stored⟩
        rw [wp_ite, if_pos (by omega), wp_pure, Nat.sub_self]
        refine ⟨Nat.le_refl i, started, Looped.nothing stored fun inside => ?_⟩
        apply acceptedBytes_zero (by omega)
        have largest : MAXFILE * BSIZE = 274432 := by decide
        rw [Unwritable] at unwritable
        rw [← isN1]
        omega
      · rcases accepted unwritable with ⟨isResult, isMoved, stored⟩
        have entry := same.entry
        rw [wp_ite, if_neg (by omega), wp_ite, if_neg (by omega)]
        apply (ih exactMiddle _ _ (by omega) (by omega)).imp
        · rintro final after ⟨isMore, atMost, rest⟩
          have shifted : (address + ↑(i + n1)) % 2 ^ 64 =
              ((address + i) % 2 ^ 64 + n1) % 2 ^ 64 := by omega
          have left : (n - ↑(i + n1)).toNat = (n - i).toNat - n1 := by omega
          have count : final - i = n1 + (final - (i + n1)) := by omega
          rw [shifted, left] at rest
          rw [count]
          exact ⟨by omega, atMost, Looped.chunk isN1 unwritable isMoved stored rest⟩
        · rw [entry]
          exact isInode
        · rw [entry]
          exact writable
    · rw [if_neg more, wp_pure, Nat.sub_self]
      refine ⟨Nat.le_refl i, started, Looped.nothing (Stored.nothing rfl rfl) fun inside => ?_⟩
      exact acceptedBytes_zero (by omega) (Or.inl (by omega))

/-- A write reports what it has stored.  A first part of the buffer, which is
mapped, is in the file at the old offset, and it is all of the buffer if the call
returns `n`.  The offset is moved by as much as is stored, and is not behind the
end of the file. -/
structure Reported (file : FileIndex) (memory : UserMemory) (address : Nat) (n : Int)
    (system : System) (result : Int) (after : System) (stored : Nat) : Prop where
  atMost : stored ≤ n.toNat
  mapped : memory.Maps address stored
  all : result = n → stored = n.toNat
  off : (after.ftable file).off = (system.ftable file).off + stored
  contents : after.contentsOf file = overwrite (system.contentsOf file) (system.ftable file).off
    (userBytes memory address stored)
  inside : (after.ftable file).off ≤ after.sizeOf file

/-- `filewrite` reports what it has stored exactly if the offset is not behind the
end of the file and the part of the buffer that `writei` accepts is mapped.  It
stops only on a disk without a free block. -/
theorem filewrite_reports {memory : UserMemory} {address : Nat} {n : Int} (exact : Exact 0 system)
    (isInode : (system.ftable file).type = .inode)
    (writable : (system.ftable file).writable = true) (isInt : 0 ≤ n ∧ n < 2 ^ 31) :
    Wp (filewrite file memory address n) system
      (fun result after => (∃ stored, Reported file memory address n system result after stored) ↔
        (system.ftable file).off ≤ system.sizeOf file ∧
          memory.Maps address (acceptedBytes (system.ftable file).off n.toNat))
      fun stop after => stop = .panic .ballocOutOfBlocks ∧ after.store.Full := by
  have accepted : ¬ (system.ftable file).writable = false := by
    rw [writable]
    exact Bool.false_ne_true.symm
  rw [filewrite, wp_bind, wp_get]
  rw [if_neg accepted, wp_bind]
  apply (exact.filewriteFrom_wp isInode writable (by omega) (by omega)).imp
  rintro final after ⟨_, atMost, looped⟩
  have sameMaps : ∀ count, memory.Maps ((address + 0) % 2 ^ 64) count ↔ memory.Maps address count :=
    fun count => by simp only [UserMemory.Maps, Nat.add_zero, Nat.mod_add_mod]
  have sameCount : (n - ↑(0 : Nat)).toNat = n.toNat := by rw [Nat.cast_zero, Int.sub_zero]
  rw [sameCount, Nat.sub_zero] at looped
  rw [wp_pure]
  constructor
  · rintro ⟨stored, reported⟩
    have isStored : stored = final := by
      have moved := reported.off
      rw [looped.off] at moved
      omega
    have inside : (system.ftable file).off ≤ system.sizeOf file := by
      apply Nat.le_of_not_lt
      intro beyond
      rcases looped.beyond beyond with ⟨isNothing, isSize⟩
      have behind := reported.inside
      rw [looped.off, isSize, isNothing] at behind
      omega
    refine ⟨inside, (sameMaps _).mp (looped.mapped inside ((sameMaps _).mpr ?_))⟩
    rw [← isStored]
    exact reported.mapped
  · rintro ⟨inside, maps⟩
    rcases looped.stored inside ((sameMaps _).mpr maps) with ⟨isCount, stored⟩
    have sameBytes : userBytes memory ((address + 0) % 2 ^ 64) final = userBytes memory address final := by
      rw [Nat.add_zero, userBytes_mod]
    rw [sameBytes] at stored
    refine ⟨final, by omega, ?_, ?_, looped.off, stored.contents, stored.inside inside⟩
    · rw [isCount]
      exact maps
    · intro isAll
      split at isAll
      · omega
      · omega

end

/-- A new file is opened. -/
def openNew : List Action :=
  [.call 0 (.open (some [102]) (O_CREATE ||| O_RDWR))]

/-- A write of 20 bytes that cross the end of a page. -/
theorem filewrite_reports_twenty : ∃ opened after, exec step Sample.system openNew = .next opened ∧
    (filewrite Sample.file Sample.zeros 4090 20).run opened = .ok 20 after ∧
    ∃ stored, Reported Sample.file Sample.zeros 4090 20 opened 20 after stored := by
  have ran : ∃ opened, exec step Sample.system openNew = .next opened ∧
      (opened.ftable Sample.file).type = .inode ∧
      (opened.ftable Sample.file).writable = true ∧ (opened.ftable Sample.file).off = 0 ∧
      Wp (filewrite Sample.file Sample.zeros 4090 20) opened fun result _ => result = 20 := by
    decide +kernel
  rcases ran with ⟨opened, reached, isInode, isWritable, isOff, returns⟩
  rcases wp_false_iff.mp returns with ⟨result, after, wrote, rfl⟩
  have reports : Wp (filewrite Sample.file Sample.zeros 4090 20) opened _ _ :=
    filewrite_reports (Sample.starting.kept.run reached).exact isInode isWritable (by decide)
  rw [wp_of_run wrote] at reports
  refine ⟨opened, after, reached, wrote, reports.mpr ⟨?_, fun _ _ => rfl⟩⟩
  rw [isOff]
  exact Nat.zero_le _

/-- A write from a buffer that is not mapped reports success, although nothing
is stored, and leaves the offset behind the end of the file. -/
theorem unmapped_reported_stored : ∃ opened, exec step Sample.system openNew = .next opened ∧
    (opened.ftable Sample.file).type = .inode ∧ (opened.ftable Sample.file).writable = true ∧
    (opened.ftable Sample.file).off = 0 ∧ opened.sizeOf Sample.file = 0 ∧
    Wp (filewrite Sample.file (fun _ => none) 0 5) opened
      fun result after => result = 5 ∧ after.contentsOf Sample.file = [] ∧
        (after.ftable Sample.file).off = 5 ∧ after.sizeOf Sample.file = 0 := by
  decide +kernel

end Fs
end Xv6
