import Xv6.Buffer.Cache

namespace Xv6
namespace Log

open Foundation
open Buffer

/-!
# Committing and recovering

The functions of `kernel/log.c` that move blocks between the cache, the log
and their homes: `write_log`, `install_trans`, `read_head`, `write_head`,
`commit` and `recover_from_log`.  They run over the buffer cache and stop where
`bread` sleeps or panics.

The header block is read and written through its bytes, as `struct logheader`:
a 32-bit count and then one 32-bit block number for each entry.  Writing the
header leaves the bytes behind the last entry as they were.
-/

/-! ## The header block -/

/-- The field `n` of a header block. -/
def headerCount (block : Block) : Int :=
  Bytes.signed 32 (block.getLE 0 4)

/-- The entries of a header block.  A negative count makes the loop of
`read_head` copy nothing. -/
def decodeHeader (block : Block) : List Nat :=
  (List.range (headerCount block).toNat).map fun index => block.getLE (4 + 4 * index) 4

/-- The loop of `write_head`, from an index on. -/
def encodeEntries (block : Block) : (index : Nat) → List Nat → Block
  | _, [] => block
  | index, entry :: rest => encodeEntries (block.setLE (4 + 4 * index) 4 entry) (index + 1) rest

/-- The assignments of `write_head` to the header buffer. -/
def encodeHeader (entries : List Nat) (block : Block) : Block :=
  encodeEntries (block.setLE 0 4 entries.length) 0 entries

section

variable (block : Block) (index : Nat) (entries : List Nat)

theorem getLE_encodeEntries_before {field width : Nat} (before : field + width ≤ 4 + 4 * index) :
    (encodeEntries block index entries).getLE field width = block.getLE field width := by
  induction entries generalizing block index with
  | nil => rfl
  | cons entry rest ih =>
    rw [encodeEntries, ih _ _ (by omega), Bytes.getLE_setLE_outside]
    exact Or.inl before

theorem getLE_encodeEntries (room : 4 + 4 * (index + entries.length) ≤ BSIZE)
    (small : ∀ entry ∈ entries, entry < 2 ^ 32) {position : Nat} (inside : position < entries.length) :
    (encodeEntries block index entries).getLE (4 + 4 * (index + position)) 4 =
      entries[position] := by
  induction entries generalizing block index position with
  | nil => simp at inside
  | cons entry rest ih =>
    rw [encodeEntries]
    rw [List.length_cons] at room inside
    cases position with
    | zero =>
      rw [getLE_encodeEntries_before _ _ _ (by omega), Nat.add_zero,
        Bytes.getLE_setLE _ _ (by omega)]
      exact Nat.mod_eq_of_lt (small entry (by simp))
    | succ position =>
      have later := ih (block.setLE (4 + 4 * index) 4 entry) (index + 1)
        (by omega) (fun other member => small other (by simp [member])) (by omega : position < rest.length)
      rw [show index + (position + 1) = index + 1 + position by omega, later]
      rfl

end

theorem headerCount_encodeHeader (block : Block) {entries : List Nat}
    (fits : entries.length ≤ LOGSIZE) :
    headerCount (encodeHeader entries block) = entries.length := by
  have short : entries.length ≤ 30 := fits
  rw [headerCount, encodeHeader, getLE_encodeEntries_before _ _ _ (by omega),
    Bytes.getLE_setLE _ _ (by decide), Nat.mod_eq_of_lt (by omega), Bytes.signed, if_pos (by omega)]

theorem decodeHeader_of_count_zero {block : Block} (empty : headerCount block = 0) :
    decodeHeader block = [] := by
  rw [decodeHeader, empty]
  rfl

theorem decodeHeader_encodeHeader (block : Block) {entries : List Nat}
    (fits : entries.length ≤ LOGSIZE) (small : ∀ entry ∈ entries, entry < 2 ^ 32) :
    decodeHeader (encodeHeader entries block) = entries := by
  have short : entries.length ≤ 30 := fits
  rw [decodeHeader, headerCount_encodeHeader block fits, Int.toNat_natCast]
  refine List.ext_getElem (by simp) fun position inside within => ?_
  rw [List.getElem_map, List.getElem_range, encodeHeader]
  have entry := getLE_encodeEntries (block.setLE 0 4 entries.length) 0 entries
    (by rw [Nat.zero_add, show BSIZE = 1024 from rfl]; omega) small within
  rwa [Nat.zero_add] at entry

/-! ## The programs -/

variable (pid : Pid)

/-- `read_head`. -/
def readHead : Kernel PUnit := do
  let log := (← get).log
  let buf ← bread pid log.dev log.start
  modify fun machine =>
    { machine with log := { machine.log with lh := decodeHeader (machine.bufs buf).data } }
  brelse pid buf

/-- `write_head`. -/
def writeHead : Kernel PUnit := do
  let log := (← get).log
  let buf ← bread pid log.dev log.start
  modifyData buf (encodeHeader log.lh)
  bwrite pid buf
  brelse pid buf

/-- The body of the loop in `write_log`, for one entry. -/
def writeLogBlock (tail entry : Nat) : Kernel PUnit := do
  let log := (← get).log
  let target ← bread pid log.dev (log.start + tail + 1)
  let source ← bread pid log.dev entry
  let data := ((← get).bufs source).data
  modifyData target fun _ => data
  bwrite pid target
  brelse pid source
  brelse pid target

/-- The body of the loop in `install_trans`, for one entry. -/
def installBlock (tail entry : Nat) : Kernel PUnit := do
  let log := (← get).log
  let lbuf ← bread pid log.dev (log.start + tail + 1)
  let dbuf ← bread pid log.dev entry
  let data := ((← get).bufs lbuf).data
  modifyData dbuf fun _ => data
  bwrite pid dbuf
  bunpin dbuf
  brelse pid lbuf
  brelse pid dbuf

/-- Run the body of a loop over the entries of the header. -/
def forEntries (body : Nat → Nat → Kernel PUnit) : (tail : Nat) → List Nat → Kernel PUnit
  | _, [] => pure ⟨⟩
  | tail, entry :: rest => do
      body tail entry
      forEntries body (tail + 1) rest

/-- `write_log`. -/
def writeLog : Kernel PUnit := do
  forEntries (writeLogBlock pid) 0 (← get).log.lh

/-- `install_trans`. -/
def installTrans : Kernel PUnit := do
  forEntries (installBlock pid) 0 (← get).log.lh

/-- `log.lh.n = 0`. -/
def clearHeader : Kernel PUnit :=
  modify fun machine => { machine with log := { machine.log with lh := [] } }

/-- `recover_from_log`. -/
def recoverFromLog : Kernel PUnit := do
  readHead pid
  installTrans pid
  clearHeader
  writeHead pid

/-- `commit`. -/
def commit : Kernel PUnit := do
  if (← get).log.lh.length > 0 then
    writeLog pid
    writeHead pid
    installTrans pid
    clearHeader
    writeHead pid

end Log
end Xv6
