import Mathlib.Data.List.TakeWhile
import Xv6.Fs.Inode

namespace Xv6
namespace Fs

open Foundation
open Buffer (Block Stop)

/-!
# Directories and paths

The upper half of `kernel/fs.c`: looking up, adding and finding entries of a
directory, and following a path.  A loop over the entries of a directory runs
as long as the offset is below its size, so the size bounds its rounds; the
loop over a path is bounded by the length of the path, of which every round
consumes a part.
-/

/-- `sizeof(struct dirent)`. -/
def direntSize : Nat := 16

/-- The name `"."`. -/
def dotName : Name := [46]

/-- The name `".."`. -/
def dotdotName : Name := [46, 46]

/-- Read the entry at an offset, or panic for the given reason. -/
def readDirent (dp : Index) (off : Nat) (short : Panic) : Kernel Dirent := do
  let (tot, bytes) ← readi dp .kernel off direntSize
  if tot ≠ direntSize then throw (.panic short)
  else return Dirent.decode fun position => bytes.getD position 0

/-- Record that an entry is followed. -/
def noteLookup (dir : Nat) (name : Name) (inum : Nat) : Kernel PUnit :=
  modify fun store =>
    let block := store.blocks (store.sb.IBLOCK inum)
    { store with
      lookups := store.lookups ++ [⟨dir, name, inum, (Dinode.decode block (inum % IPB)).type⟩] }

/-- The loop of `dirlookup`.  The result has the entry of the cache and `*poff`. -/
def dirlookupFrom (dp : Index) (name : Name) : (off fuel : Nat) → Kernel (Option (Index × Nat))
  | _, 0 => return none
  | off, fuel + 1 => do
      let inode := (← get).icache dp
      if off < inode.dinode.size.toNat then
        let de ← readDirent dp off .dirlookupRead
        if de.inum = 0 then dirlookupFrom dp name (off + direntSize) fuel
        else if name = de.name then
          noteLookup inode.inum name de.inum
          let ip ← iget de.inum
          return some (ip, off)
        else dirlookupFrom dp name (off + direntSize) fuel
      else return none

/-- `dirlookup`. -/
def dirlookup (dp : Index) (name : Name) : Kernel (Option (Index × Nat)) := do
  let dinode := ((← get).icache dp).dinode
  if dinode.type ≠ T_DIR then throw (.panic .dirlookupNotDir)
  else dirlookupFrom dp name 0 (dinode.size.toNat / direntSize + 1)

/-- The loop of `dirlink` that looks for an empty entry. -/
def emptyDirent (dp : Index) : (off fuel : Nat) → Kernel Nat
  | off, 0 => return off
  | off, fuel + 1 => do
      if off < ((← get).icache dp).dinode.size.toNat then
        let de ← readDirent dp off .dirlinkRead
        if de.inum = 0 then return off
        else emptyDirent dp (off + direntSize) fuel
      else return off

/-- `dirlink`; the number is cut to the 16 bits of an entry. -/
def dirlink (dp : Index) (name : Name) (inum : Nat) : Kernel Int := do
  match ← dirlookup dp name with
  | some (ip, _) =>
    iput ip
    return -1
  | none =>
    let size := ((← get).icache dp).dinode.size.toNat
    let off ← emptyDirent dp 0 (size / direntSize + 1)
    let written ← writei dp (.kernel (Dirent.bytes ⟨inum, name⟩)) off direntSize
    if written ≠ direntSize then throw (.panic .dirlink) else return 0

/-! ## Paths -/

/-- The bytes of a path before its terminating zero. -/
abbrev Path := List UInt8

/-- The character `'/'`. -/
def slash : UInt8 := 47

/-- The array `name` after `skipelem` has copied an element to it. -/
def copyElement (array element : List UInt8) : List UInt8 :=
  if DIRSIZ ≤ element.length then element.take DIRSIZ ++ array.drop DIRSIZ
  else element ++ 0 :: array.drop (element.length + 1)

/-- `skipelem`: the array `name` with the next element, and the rest of the
path. -/
def skipelem (path : Path) (array : List UInt8) : Option (List UInt8 × Path) :=
  let path := path.dropWhile (· = slash)
  if path = [] then none
  else
    some (copyElement array (path.takeWhile (· ≠ slash)),
      (path.dropWhile (· ≠ slash)).dropWhile (· = slash))

/-- The name in an array, as `strncmp` reads it. -/
def nameIn (array : List UInt8) : Name :=
  array.takeWhile (· ≠ 0)

/-- The loop of `namex`.  With `parent` the result has the last element of the
path, which it leaves in `name`. -/
def namexFrom (parent : Bool) :
    (fuel : Nat) → Index → Path → (array : List UInt8) → Kernel (Option (Index × Name))
  | 0, _, _, _ => return none
  | fuel + 1, ip, path, array => do
      match skipelem path array with
      | none =>
        if parent then
          iput ip
          return none
        else return some (ip, [])
      | some (array, rest) =>
        ilock ip
        if ((← get).icache ip).dinode.type ≠ T_DIR then
          iunlockput ip
          return none
        else if parent = true ∧ rest = [] then
          iunlock ip
          return some (ip, nameIn array)
        else
          match ← dirlookup ip (nameIn array) with
          | none =>
            iunlockput ip
            return none
          | some (next, _) =>
            iunlockput ip
            namexFrom parent fuel next rest array

section

variable (cwd : Index) (path : Path)

/-- `namex`, for a process with the given working directory.  Nothing reads the
array `name` before `skipelem` has written to it. -/
def namex (parent : Bool) : Kernel (Option (Index × Name)) := do
  if path.head? = some slash then
    let ip ← iget ROOTINO
    namexFrom parent (path.length + 1) ip path (List.replicate DIRSIZ 0)
  else
    idup cwd
    namexFrom parent (path.length + 1) cwd path (List.replicate DIRSIZ 0)

def namei : Kernel (Option Index) := do
  return (← namex cwd path false).map Prod.fst

def nameiparent : Kernel (Option (Index × Name)) :=
  namex cwd path true

end

theorem skipelem_eq_some {path rest : Path} {array copied : List UInt8}
    (skipped : skipelem path array = some (copied, rest)) : ∃ element others,
      path.dropWhile (· = slash) = element ++ others ∧ copied = copyElement array element ∧
      rest = others.dropWhile (· = slash) ∧ element ≠ [] ∧ slash ∉ element ∧
      ∀ c ∈ others.head?, c = slash := by
  have head := List.head?_dropWhile_not (fun c => decide (c = slash)) path
  rw [skipelem] at skipped
  cases stripped : path.dropWhile fun c => decide (c = slash) with
  | nil => simp [stripped] at skipped
  | cons first behind =>
    rw [stripped] at head skipped
    cases skipped
    refine ⟨_, _, List.takeWhile_append_dropWhile.symm, rfl, rfl, ?_, ?_, ?_⟩
    · rw [List.takeWhile_cons_of_pos (by simpa using head)]
      exact List.cons_ne_nil _ _
    · intro member
      simpa using List.mem_takeWhile_imp member
    · intro c isHead
      have stopped := List.head?_dropWhile_not (fun c => decide (c ≠ slash)) (first :: behind)
      rw [Option.mem_def.mp isHead] at stopped
      simpa using stopped

/-- The array holds the element, cut to its size, and a zero if and only if
the element is shorter. -/
theorem copyElement_holds {array element : List UInt8} (size : array.length = DIRSIZ)
    (nonzero : 0 ∉ element) :
    (copyElement array element).length = DIRSIZ ∧
      nameIn (copyElement array element) = element.take DIRSIZ ∧
      (0 ∈ copyElement array element ↔ element.length < DIRSIZ) := by
  have nonzeroCut : ∀ c ∈ element.take DIRSIZ, c ≠ 0 :=
    fun c member isZero => nonzero (isZero ▸ List.mem_of_mem_take member)
  rw [nameIn, copyElement]
  by_cases long : DIRSIZ ≤ element.length
  · rw [if_pos long, List.drop_eq_nil_of_le (by omega), List.append_nil]
    refine ⟨List.length_take_of_le long, ?_, iff_of_false (fun member => ?_) (by omega)⟩
    · rw [List.takeWhile_eq_self_iff]
      simpa using nonzeroCut
    · exact nonzeroCut 0 member rfl
  · rw [if_neg long, List.take_of_length_le (by omega)]
    refine ⟨?_, ?_, iff_of_true (by simp) (by omega)⟩
    · rw [List.length_append, List.length_cons, List.length_drop]
      omega
    · rw [List.takeWhile_append_of_pos, List.takeWhile_cons_of_neg (by simp), List.append_nil]
      rw [List.take_of_length_le (by omega)] at nonzeroCut
      simpa using nonzeroCut

theorem length_lt_of_skipelem {path rest : Path} {array copied : List UInt8}
    (skipped : skipelem path array = some (copied, rest)) : rest.length < path.length := by
  rcases skipelem_eq_some skipped with ⟨element, others, stripped, _, isRest, nonempty, _⟩
  have removed : rest.length ≤ others.length := by
    rw [isRest]
    exact (List.dropWhile_sublist _).length_le
  have whole : (element ++ others).length ≤ path.length := by
    rw [← stripped]
    exact (List.dropWhile_sublist _).length_le
  have positive := List.length_pos_iff.mpr nonempty
  rw [List.length_append] at whole
  omega

end Fs
end Xv6
