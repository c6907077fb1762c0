import Xv6.Fs.Truncate

namespace Xv6
namespace Fs

open Foundation
open Buffer (Block Stop)

/-!
# Directories as lists of entries

Above the bytes of the inodes, the file system is a table of nodes: the type
and the link count of every inode, and the entries of every directory.  Reading
an entry, writing one, and looking for a name are operations on the list of
entries.
-/

/-! ## Entries and their bytes -/

variable {name : Name}

namespace Dirent

/-- The entry fits the fields of `struct dirent`. -/
structure Fits (entry : Dirent) : Prop where
  inum : entry.inum < 2 ^ 16
  length : entry.name.length ≤ DIRSIZ
  nonzero : 0 ∉ entry.name

theorem decode_congr {first second : Nat → UInt8}
    (agree : ∀ position, position < direntSize → first position = second position) :
    decode first = decode second := by
  have inum : Bytes.fromLE 2 first = Bytes.fromLE 2 second :=
    Bytes.fromLE_congr fun position inside =>
      agree position (Nat.lt_trans inside (by decide))
  have name : (List.range DIRSIZ).map (fun position => first (2 + position)) =
      (List.range DIRSIZ).map (fun position => second (2 + position)) := by
    apply List.map_congr_left
    intro position inside
    have bound : position < 14 := List.mem_range.mp inside
    exact agree (2 + position) (by unfold direntSize; omega)
  rw [decode, decode, inum, name]

theorem takeWhile_padded (nonzero : 0 ∉ name) (more : Nat) :
    ((List.range (name.length + more)).map fun position => name.getD position 0).takeWhile
      (· ≠ 0) = name := by
  induction name with
  | nil =>
    cases more with
    | zero => rfl
    | succ more => simp [List.range_succ_eq_map]
  | cons byte rest ih =>
    rw [List.mem_cons, not_or] at nonzero
    have isByte : byte ≠ 0 := Ne.symm nonzero.1
    have tail := ih nonzero.2
    rw [List.length_cons, Nat.add_right_comm, List.range_succ_eq_map, List.map_cons,
      List.map_map, List.takeWhile_cons_of_pos (by simpa using isByte)]
    exact congrArg (byte :: ·) tail

theorem decode_bytes {entry : Dirent} (fits : entry.Fits) : decode entry.bytes = entry := by
  have inum : Bytes.fromLE 2 entry.bytes = entry.inum := by
    have agree : ∀ position, position < 2 → entry.bytes position = Bytes.toLE entry.inum position :=
      fun position inside => if_pos inside
    rw [Bytes.fromLE_congr agree, Bytes.fromLE_toLE]
    exact Nat.mod_eq_of_lt fits.inum
  have name : (List.range DIRSIZ).map (fun position => entry.bytes (2 + position)) =
      (List.range (entry.name.length + (DIRSIZ - entry.name.length))).map
        fun position => entry.name.getD position 0 := by
    rw [Nat.add_sub_cancel' fits.length]
    apply List.map_congr_left
    intro position _
    rw [bytes, if_neg (by omega), Nat.add_sub_cancel_left]
  rw [decode, inum, name, takeWhile_padded fits.nonzero]

theorem fits_empty : Fits empty :=
  ⟨by decide, by decide, by decide⟩

end Dirent

/-! ## Nodes -/

/-- What the file system records of an inode besides its contents, and the
entries if it is a directory. -/
@[ext] structure Node where
  type : BitVec 16
  nlink : BitVec 16
  entries : List Dirent
deriving DecidableEq, Repr

/-- The node of an inode that was freed. -/
def Node.free : Node := ⟨0, 0, []⟩

/-- Does a name lead to the inode of the entry? -/
def Dirent.isNamed (name : Name) (entry : Dirent) : Bool :=
  decide (entry.inum ≠ 0 ∧ entry.name = name)

/-- The inode to which a name leads in a directory. -/
def Node.lookup (node : Node) (name : Name) : Option Nat :=
  (node.entries.find? (Dirent.isNamed name)).map Dirent.inum

variable {first second volume : Volume} {inum index fuel : Nat}

namespace Volume

section

variable (volume : Volume) (inum : Nat)

/-- An entry of a directory. -/
def entry (index : Nat) : Dirent :=
  Dirent.decode fun position => volume.byte inum (direntSize * index + position)

/-- The entries of a directory. -/
def entries : List Dirent :=
  (List.range ((volume.dinodes inum).size.toNat / direntSize)).map (volume.entry inum)

def node : Node where
  type := (volume.dinodes inum).type
  nlink := (volume.dinodes inum).nlink
  entries := if (volume.dinodes inum).type = T_DIR then volume.entries inum else []

@[simp] theorem type_node : (volume.node inum).type = (volume.dinodes inum).type := rfl

end

theorem entries_node (isDir : (volume.dinodes inum).type = T_DIR) :
    (volume.node inum).entries = volume.entries inum :=
  if_pos isDir

theorem length_entries (volume : Volume) (inum : Nat) :
    (volume.entries inum).length = (volume.dinodes inum).size.toNat / direntSize := by
  rw [entries, List.length_map, List.length_range]

theorem getElem?_entries (inside : index < (volume.entries inum).length) :
    (volume.entries inum)[index]? = some (volume.entry inum index) := by
  rw [length_entries] at inside
  rw [entries, List.getElem?_map, List.getElem?_range inside]
  rfl

theorem entries_congr (size : (second.dinodes inum).size = (first.dinodes inum).size)
    (byte : ∀ position, second.byte inum position = first.byte inum position) :
    second.entries inum = first.entries inum := by
  rw [entries, entries, size]
  apply List.map_congr_left
  intro index _
  rw [entry, entry]
  exact Dirent.decode_congr fun position _ => byte _

theorem node_congr (dinode : second.dinodes inum = first.dinodes inum)
    (byte : ∀ position, second.byte inum position = first.byte inum position) :
    second.node inum = first.node inum := by
  have same : second.entries inum = first.entries inum := entries_congr (by rw [dinode]) byte
  rw [node, node, dinode, same]

theorem node_of_file (isFile : (volume.dinodes inum).type ≠ T_DIR) :
    volume.node inum = ⟨(volume.dinodes inum).type, (volume.dinodes inum).nlink, []⟩ := by
  rw [node, if_neg isFile]

end Volume

/-! ## Writing an entry -/

/-- Write an entry at an index, which may be the end of the list. -/
def putEntry (entries : List Dirent) (index : Nat) (entry : Dirent) : List Dirent :=
  entries.take index ++ entry :: entries.drop (index + 1)

theorem getElem?_putEntry {entries : List Dirent} {other : Nat}
    (inside : index ≤ entries.length) (entry : Dirent) :
    (putEntry entries index entry)[other]? =
      if other = index then some entry else entries[other]? := by
  have length : (entries.take index).length = index := by
    rw [List.length_take]
    omega
  unfold putEntry
  rcases Nat.lt_trichotomy other index with before | here | behind
  · rw [if_neg (by omega), List.getElem?_append_left (by omega), List.getElem?_take_of_lt before]
  · rw [if_pos here, List.getElem?_append_right (by omega), length, here, Nat.sub_self,
      List.getElem?_cons_zero]
  · have split : other - index = (other - index - 1) + 1 := by omega
    rw [if_neg (by omega), List.getElem?_append_right (by omega), length, split,
      List.getElem?_cons_succ, List.getElem?_drop]
    congr 1
    omega

section

variable {tracked : Prop} {store after : Store} {ip : Index} {entry : Dirent}

/-- The entries of a directory after `writei` has written one of them. -/
theorem Written.entries
    (written : Written tracked (.kernel entry.bytes) store after ip (direntSize * index) direntSize)
    (coherent : (store.icache ip).dinode = store.volume.dinodes (store.icache ip).inum)
    (aligned : (store.icache ip).dinode.size.toNat % direntSize = 0) (fits : entry.Fits)
    (inside : index ≤ (store.volume.entries (store.icache ip).inum).length) :
    after.volume.entries (store.icache ip).inum =
      putEntry (store.volume.entries (store.icache ip).inum) index entry := by
  have total := Source.total_kernel entry.bytes
  rcases written.size with ⟨final, _, size, isFinal⟩
  rw [isFinal total] at size
  have isDinode : after.volume.dinodes (store.icache ip).inum = (after.icache ip).dinode := by
    rw [← written.coherent, ← written.edited.inum, Store.dinodes_view_self]
  have sixteen : direntSize = 16 := rfl
  have before : (store.volume.entries (store.icache ip).inum).length =
      (store.icache ip).dinode.size.toNat / direntSize := by
    rw [Volume.length_entries, ← coherent]
  have lengths : (after.volume.entries (store.icache ip).inum).length =
      max (store.volume.entries (store.icache ip).inum).length (index + 1) := by
    rw [Volume.length_entries, before, isDinode, size, sixteen]
    rw [sixteen] at aligned
    omega
  have entryAt : ∀ other, after.volume.entry (store.icache ip).inum other =
      if other = index then entry else store.volume.entry (store.icache ip).inum other := by
    intro other
    by_cases same : other = index
    · rw [if_pos same, same, ← Dirent.decode_bytes fits]
      apply Dirent.decode_congr
      intro position small
      rw [written.bytes total position small]
      rfl
    · rw [if_neg same]
      apply Dirent.decode_congr
      intro position small
      apply written.byte
      rintro ⟨_, lower, upper⟩
      rw [sixteen] at small lower upper
      omega
  apply List.ext_getElem?
  intro other
  rw [getElem?_putEntry inside]
  by_cases small : other < (after.volume.entries (store.icache ip).inum).length
  · rw [Volume.getElem?_entries small, entryAt]
    by_cases same : other = index
    · rw [if_pos same, if_pos same]
    · rw [if_neg same, if_neg same, Volume.getElem?_entries (by omega)]
  · rw [List.getElem?_eq_none (by omega), if_neg (by omega), List.getElem?_eq_none (by omega)]

end

/-! ## Reading entries -/

variable {returns : Option (Index × Nat) → Store → Prop} {stops : Stop → Store → Prop}

section

variable {store : Store} {dp : Index}

/-- A directory whose cached copy is as on the disk, ready to be read. -/
structure Directory (store : Store) (dp : Index) : Prop where
  owned : Owned store.sb store.volume
  coherent : (store.icache dp).dinode = store.volume.dinodes (store.icache dp).inum
  holeFree : HoleFree store.volume (store.icache dp).inum
  aligned : (store.icache dp).dinode.size.toNat % direntSize = 0
  isDir : (store.icache dp).dinode.type = T_DIR

/-- The entries of the directory. -/
def Store.entries (store : Store) (dp : Index) : List Dirent :=
  store.volume.entries (store.icache dp).inum

namespace Directory

variable (directory : Directory store dp)
include directory

theorem view : store.view dp = store.volume :=
  Store.view_eq_volume directory.coherent

theorem size : (store.icache dp).dinode.size.toNat = direntSize * (store.entries dp).length := by
  rw [Store.entries, Volume.length_entries, ← directory.coherent]
  exact (Nat.mul_div_cancel' (Nat.dvd_of_mod_eq_zero directory.aligned)).symm

theorem size_div :
    (store.icache dp).dinode.size.toNat / direntSize = (store.entries dp).length := by
  rw [directory.size, Nat.mul_div_cancel_left _ (by decide)]

theorem length_le : direntSize * (store.entries dp).length ≤ MAXFILE * BSIZE := by
  have bounded := directory.holeFree.bounded
  rw [← directory.coherent, directory.size] at bounded
  exact bounded

theorem readDirent_wp (inside : index < (store.entries dp).length) (short : Panic) :
    Wp (readDirent dp (direntSize * index) short) store
      fun de after => after = store ∧ (store.entries dp)[index]? = some de := by
  have isView := directory.view
  have size := directory.size
  have below : direntSize * index + direntSize ≤ (store.icache dp).dinode.size.toNat := by
    rw [size, ← Nat.mul_succ]
    exact Nat.mul_le_mul_left direntSize inside
  have bounded := directory.length_le
  rw [← size] at bounded
  have most : MAXFILE * BSIZE = 274432 := rfl
  rw [readDirent, wp_bind]
  refine (readi_wp (by rw [isView]; exact directory.owned)
    (by rw [isView]; exact directory.holeFree) .kernel (by omega) (by decide)).mono ?_ fun _ _ => id
  rintro ⟨tot, bytes⟩ after ⟨same, _, whole⟩
  rcases whole fun _ _ _ => rfl with ⟨isTot, isBytes⟩
  dsimp only at isTot isBytes ⊢
  have full : tot = direntSize := by
    rw [isTot, readCount, if_neg (by omega)]
    omega
  subst same
  rw [if_neg (not_not.mpr full), wp_pure]
  refine ⟨rfl, ?_⟩
  rw [Store.entries] at inside ⊢
  rw [Volume.getElem?_entries inside, Option.some.injEq, Volume.entry]
  apply Dirent.decode_congr
  intro position small
  rw [isBytes, isView, full, Volume.bytes, List.getD_eq_getElem?_getD, List.getElem?_map,
    List.getElem?_range small]
  rfl

theorem offset_lt_iff (index : Nat) :
    direntSize * index < (store.icache dp).dinode.size.toNat ↔
      index < (store.entries dp).length := by
  rw [directory.size]
  exact Nat.mul_lt_mul_left (by decide)

/-- The loop of `dirlookup` follows the first entry with the name, or reaches
the end. -/
theorem dirlookupFrom_wp (index : Nat) (enough : (store.entries dp).length < index + fuel)
    (found : ∀ position inum, (store.entries dp)[position]? = some ⟨inum, name⟩ → inum ≠ 0 →
      ((store.entries dp).drop index).find? (Dirent.isNamed name) = some ⟨inum, name⟩ →
        Wp (do
          noteLookup (store.icache dp).inum name inum
          let ip ← iget inum
          return some (ip, direntSize * position)) store returns stops)
    (missing : ((store.entries dp).drop index).find? (Dirent.isNamed name) = none →
      returns none store) :
    Wp (dirlookupFrom dp name (direntSize * index) fuel) store returns stops := by
  induction fuel generalizing index with
  | zero =>
    rw [dirlookupFrom, wp_pure]
    apply missing
    rw [List.drop_eq_nil_of_le (by omega), List.find?_nil]
  | succ fuel ih =>
    simp only [dirlookupFrom, wp_bind, wp_get, wp_ite, directory.offset_lt_iff]
    split
    · rename_i inside
      refine (directory.readDirent_wp inside _).total ?_
      rintro de after ⟨same, isEntry⟩
      subst same
      have remaining : (after.entries dp).drop index = de :: (after.entries dp).drop (index + 1) := by
        rw [List.drop_eq_getElem_cons inside]
        rw [List.getElem?_eq_getElem inside, Option.some.injEq] at isEntry
        rw [isEntry]
      rw [← Nat.mul_succ]
      have later : ¬ de.isNamed name →
          Wp (dirlookupFrom dp name (direntSize * (index + 1)) fuel) after returns stops := by
        intro skipped
        rw [remaining, List.find?_cons_of_neg skipped] at found missing
        exact ih (index + 1) (by omega) found missing
      split
      · rename_i empty
        exact later fun named => (of_decide_eq_true named).1 empty
      · rename_i used
        split
        · rename_i sameName
          have named : de.isNamed name := decide_eq_true ⟨used, sameName.symm⟩
          have isNamed : de = ⟨de.inum, name⟩ := by rw [sameName]
          have here := found index de.inum (by rw [isEntry, ← isNamed]) used
            (by rw [remaining, List.find?_cons_of_pos named, ← isNamed])
          simpa only [wp_bind] using here
        · rename_i otherName
          exact later fun named => otherName (of_decide_eq_true named).2.symm
    · rename_i outside
      rw [wp_pure]
      apply missing
      rw [List.drop_eq_nil_of_le (by omega), List.find?_nil]

theorem dirlookup_wp
    (found : ∀ position inum, (store.entries dp)[position]? = some ⟨inum, name⟩ → inum ≠ 0 →
      (store.entries dp).find? (Dirent.isNamed name) = some ⟨inum, name⟩ →
        Wp (do
          noteLookup (store.icache dp).inum name inum
          let ip ← iget inum
          return some (ip, direntSize * position)) store returns stops)
    (missing : (store.entries dp).find? (Dirent.isNamed name) = none → returns none store) :
    Wp (dirlookup dp name) store returns stops := by
  have length := directory.size_div
  simp only [dirlookup, wp_bind, wp_get, wp_ite]
  rw [if_neg (not_not.mpr directory.isDir), length]
  exact directory.dirlookupFrom_wp 0 (by omega) found missing

theorem emptyDirent_wp (index : Nat) (enough : (store.entries dp).length < index + fuel)
    (inside : index ≤ (store.entries dp).length) :
    Wp (emptyDirent dp (direntSize * index) fuel) store
      fun off after => after = store ∧ ∃ position, off = direntSize * position ∧
        position ≤ (store.entries dp).length ∧
        ∀ entry, (store.entries dp)[position]? = some entry → entry.inum = 0 := by
  induction fuel generalizing index with
  | zero => omega
  | succ fuel ih =>
    simp only [emptyDirent, wp_bind, wp_get, wp_ite, directory.offset_lt_iff]
    split
    · rename_i more
      refine (directory.readDirent_wp more _).mono ?_ fun _ _ => id
      rintro de after ⟨same, isEntry⟩
      subst same
      split
      · rename_i empty
        rw [wp_pure]
        refine ⟨rfl, index, rfl, inside, ?_⟩
        intro entry isAt
        rw [isEntry] at isAt
        cases isAt
        exact empty
      · rw [← Nat.mul_succ]
        exact ih (index + 1) (by omega) (by omega)
    · rename_i atEnd
      rw [wp_pure]
      refine ⟨rfl, index, rfl, inside, ?_⟩
      intro entry isAt
      rw [List.getElem?_eq_none (by omega)] at isAt
      cases isAt

theorem isdiremptyFrom_wp (enough : (store.entries dp).length < index + fuel) :
    Wp (isdiremptyFrom dp (direntSize * index) fuel) store
      fun empty after => after = store ∧ (empty = true ↔ ∀ position entry, index ≤ position →
        (store.entries dp)[position]? = some entry → entry.inum = 0) := by
  induction fuel generalizing index with
  | zero =>
    rw [isdiremptyFrom, wp_pure]
    refine ⟨rfl, iff_of_true rfl ?_⟩
    intro position entry behind isEntry
    rw [List.getElem?_eq_none (by omega)] at isEntry
    cases isEntry
  | succ fuel ih =>
    simp only [isdiremptyFrom, wp_bind, wp_get, wp_ite, directory.offset_lt_iff]
    split
    · rename_i more
      refine (directory.readDirent_wp more _).mono ?_ fun _ _ => id
      rintro de after ⟨same, isEntry⟩
      subst same
      split
      · rename_i used
        rw [wp_pure]
        refine ⟨rfl, iff_of_false (by simp) ?_⟩
        intro empty
        exact used (empty index de (Nat.le_refl index) isEntry)
      · rename_i unused
        rw [← Nat.mul_succ]
        refine (ih (by omega)).imp ?_
        rintro empty after ⟨same, isEmpty⟩
        refine ⟨same, isEmpty.trans ?_⟩
        constructor
        · intro rest position entry behind isAt
          rcases Nat.eq_or_lt_of_le behind with here | further
          · rw [← here, isEntry] at isAt
            cases isAt
            exact not_not.mp unused
          · exact rest position entry further isAt
        · intro all position entry behind
          exact all position entry (by omega)
    · rename_i atEnd
      rw [wp_pure]
      refine ⟨rfl, iff_of_true rfl ?_⟩
      intro position entry behind isEntry
      rw [List.getElem?_eq_none (by omega)] at isEntry
      cases isEntry

theorem isdirempty_wp :
    Wp (isdirempty dp) store
      fun empty after => after = store ∧
        (empty = true ↔ ∀ entry ∈ (store.entries dp).drop 2, entry.inum = 0) := by
  have length := directory.size_div
  simp only [isdirempty, wp_bind, wp_get]
  rw [length, Nat.mul_comm 2]
  refine (directory.isdiremptyFrom_wp (by omega)).imp ?_
  rintro empty after ⟨same, isEmpty⟩
  refine ⟨same, isEmpty.trans ?_⟩
  constructor
  · intro all entry member
    rcases List.getElem?_of_mem member with ⟨position, isEntry⟩
    rw [List.getElem?_drop] at isEntry
    exact all (2 + position) entry (by omega) isEntry
  · intro all position entry behind isEntry
    apply all entry
    apply List.mem_of_getElem? (i := position - 2)
    rw [List.getElem?_drop, Nat.add_sub_cancel' behind]
    exact isEntry

end Directory

end

end Fs
end Xv6
