import Mathlib.Data.List.Nodup
import Xv6.Vm.Table

namespace Xv6
namespace Vm

open Foundation Function Memory

/-!
# Mapping and unmapping ranges

`mappages` assigns a range of the map that a page table stands for, or a part of
it if no page is left for a table, and `uvmunmap` erases one.  The loops are
followed page by page; what holds of the tables meanwhile is `Grows` in the one
case and `Unmapped` in the other.
-/

variable {n first count va size page : Nat}

theorem address_lt (inside : n < MAXVA / PGSIZE) : n * PGSIZE < MAXVA := by
  simp only [MAXVA, PGSIZE] at *
  omega

/-! ## Mapping -/

section

variable (pa : Word) (perm : Word)

/-- The entry of the `i`-th page of a range. -/
def entryAt (i : Nat) : Word :=
  PA2PTE (pa + BitVec.ofNat 64 (i * PGSIZE)) ||| perm ||| PTE_V

theorem entryAt_zero : entryAt pa perm 0 = PA2PTE pa ||| perm ||| PTE_V := by
  rw [entryAt, Nat.zero_mul, BitVec.add_zero]

theorem entryAt_succ (i : Nat) :
    entryAt pa perm (i + 1) = entryAt (pa + BitVec.ofNat 64 PGSIZE) perm i := by
  rw [entryAt, entryAt, Nat.succ_mul, Nat.add_comm, BitVec.ofNat_add, BitVec.add_assoc]

theorem mapped_entryAt (i : Nat) : mapped (entryAt pa perm i) = some (entryAt pa perm i) :=
  if_pos (valid_or_PTE_V _)

end

section

variable {memory : Memory} {root : Nat}

/-- `walk` to a page that is not mapped finds an entry for it, which is not
valid, unless no page is left for a table. -/
theorem walk_unmapped_wp (wellFormed : WellFormed memory root)
    (inside : n < MAXVA / PGSIZE) (unmapped : memory.leaves root n = none) :
    Wp (walk root (n * PGSIZE) true) memory
      fun result after =>
        (result = none ∧ Grows root memory after ∧ after.free = [] ∧
          after.leaves root = memory.leaves root) ∨
        ∃ page, result = some (page, PX 0 (n * PGSIZE)) ∧
          valid (after.words page (PX 0 (n * PGSIZE))) = false ∧
          ∀ value, Grows root memory (after.store page (PX 0 (n * PGSIZE)) value) ∧
            (after.store page (PX 0 (n * PGSIZE)) value).leaves root =
              update (memory.leaves root) n (mapped value) := by
  apply (walk_true_wp wellFormed (address_lt inside)).imp
  rintro result after ⟨grows, sameLeaves, isEntry, isEmpty⟩
  have sameMap := leaves_congr sameLeaves
  cases result with
  | none => exact Or.inl ⟨rfl, grows, isEmpty rfl, sameMap⟩
  | some entry =>
    rcases entry with ⟨page, index⟩
    rcases isEntry (page, index) rfl with ⟨isPage, rfl⟩
    refine Or.inr ⟨page, rfl, ?_, ?_⟩
    · rw [← sameMap, leaves_of_lt inside, Memory.leaf, isPage, Option.bind_some] at unmapped
      exact invalid_of_mapped unmapped
    · intro value
      refine ⟨grows.trans (grows.wellFormed.grows_store isPage value), ?_⟩
      rw [grows.wellFormed.leaves_store inside isPage value, sameMap]

/-- The loop of `mappages` from page `first` on, with `count` pages to follow. -/
theorem mappagesFrom_wp (wellFormed : WellFormed memory root) {fuel : Nat}
    (pa perm : Word) (inside : first + count < MAXVA / PGSIZE) (enough : count < fuel)
    (unmapped : ∀ i, i ≤ count → memory.leaves root (first + i) = none) :
    Wp (mappagesFrom root ((first + count) * PGSIZE) perm fuel (first * PGSIZE) pa) memory
      fun result after => Grows root memory after ∧
        (result = 0 ∧
            after.leaves root = assign (memory.leaves root) first (count + 1) (entryAt pa perm) ∨
          result = -1 ∧ after.free = [] ∧ ∃ done, done ≤ count ∧
            after.leaves root = assign (memory.leaves root) first done (entryAt pa perm)) := by
  induction fuel generalizing memory first count pa with
  | zero => exact absurd enough (Nat.not_lt_zero count)
  | succ fuel ih =>
    have firstInside : first < MAXVA / PGSIZE := by omega
    simp only [mappagesFrom, wp_bind]
    apply (walk_unmapped_wp wellFormed firstInside (unmapped 0 (Nat.zero_le count))).imp
    rintro result middle (⟨rfl, grows, isEmpty, sameMap⟩ | ⟨page, rfl, invalid, assigned⟩)
    · rw [wp_pure]
      refine ⟨grows, Or.inr ⟨rfl, isEmpty, 0, Nat.zero_le count, ?_⟩⟩
      rw [assign_zero, sameMap]
    · simp only [wp_bind, wp_get, wp_ite, invalid, Bool.false_eq_true, if_false, setEntry,
        wp_modify, wp_pure]
      rw [← entryAt_zero]
      rcases assigned (entryAt pa perm 0) with ⟨grows, stored⟩
      rw [mapped_entryAt] at stored
      split
      · rename_i isLast
        have single : count = 0 := by
          simp only [PGSIZE] at isLast
          omega
        refine ⟨grows, Or.inl ⟨trivial, ?_⟩⟩
        rw [single, assign_succ, assign_zero]
        exact stored
      · rename_i notLast
        have more : count ≠ 0 := by
          intro single
          rw [single, Nat.add_zero] at notLast
          exact notLast rfl
        rcases Nat.exists_eq_succ_of_ne_zero more with ⟨rest, rfl⟩
        have last : first + (rest + 1) = first + 1 + rest := by omega
        have entries : (fun i => entryAt pa perm (i + 1)) =
            entryAt (pa + BitVec.ofNat 64 PGSIZE) perm := by
          funext i
          exact entryAt_succ pa perm i
        rw [Nat.succ_eq_add_one, last, ← Nat.succ_mul]
        apply (ih grows.wellFormed (pa + BitVec.ofNat 64 PGSIZE) (by omega) (by omega) _).imp
        · rintro result after ⟨growsLast, outcome⟩
          refine ⟨grows.trans growsLast, ?_⟩
          rw [stored, ← entries] at outcome
          rcases outcome with ⟨rfl, isMap⟩ | ⟨rfl, isEmpty, done, isPart, isMap⟩
          · exact Or.inl ⟨rfl, isMap.trans assign_succ.symm⟩
          · exact Or.inr ⟨rfl, isEmpty, done + 1, Nat.succ_le_succ isPart,
              isMap.trans assign_succ.symm⟩
        · intro i isRest
          rw [stored, update_of_ne (by omega), Nat.add_assoc, Nat.add_comm 1 i]
          exact unmapped (i + 1) (by omega)

/-- The number of pages from the one of `va` to the one of its last byte. -/
def span (va size : Nat) : Nat :=
  (va + size - 1) / PGSIZE - va / PGSIZE + 1

theorem mappages_wp (wellFormed : WellFormed memory root) (pa perm : Word)
    (positive : 0 < size) (inside : va + size ≤ MAXVA)
    (unmapped : ∀ i, i < span va size → memory.leaves root (va / PGSIZE + i) = none) :
    Wp (mappages root va size pa perm) memory
      fun result after => Grows root memory after ∧
        (result = 0 ∧
            after.leaves root =
              assign (memory.leaves root) (va / PGSIZE) (span va size) (entryAt pa perm) ∨
          result = -1 ∧ after.free = [] ∧ ∃ done, done < span va size ∧
            after.leaves root = assign (memory.leaves root) (va / PGSIZE) done (entryAt pa perm)) := by
  have last : PGROUNDDOWN ((va + size + (2 ^ 64 - 1)) % 2 ^ 64) =
      (va / PGSIZE + (span va size - 1)) * PGSIZE := by
    simp only [PGROUNDDOWN, span, MAXVA, PGSIZE] at *
    omega
  have spans : span va size - 1 + 1 = span va size := rfl
  rw [mappages, last, PGROUNDDOWN]
  apply (mappagesFrom_wp wellFormed pa perm _ _ _).imp
  · rintro result after ⟨grows, outcome⟩
    rw [spans] at outcome
    refine ⟨grows, outcome.imp_right ?_⟩
    rintro ⟨isFailed, isEmpty, done, isPart, isMap⟩
    exact ⟨isFailed, isEmpty, done, by omega, isMap⟩
  · simp only [span, MAXVA, PGSIZE] at *
    omega
  · simp only [span, rounds, MAXVA, PGSIZE] at *
    omega
  · intro i isPart
    exact unmapped i (by omega)

end

/-! ## Unmapping -/

variable {pte pa perm : Word} {after base before middle : Memory}

namespace Memory

/-- The physical pages of a range, in order. -/
def frames (memory : Memory) (root first count : Nat) : List Nat :=
  (List.range' first count).filterMap fun n =>
    (memory.leaves root n).map fun pte => pageOf (PTE2PA pte)

/-- A page is put on the free list. -/
def release (memory : Memory) (page : Nat) : Memory :=
  { memory.fill page 0x0101010101010101 with free := page :: memory.free }

variable {memory : Memory} {root : Nat}

theorem frames_succ (isLeaf : memory.leaves root first = some pte) :
    memory.frames root first (count + 1) =
      pageOf (PTE2PA pte) :: memory.frames root (first + 1) count := by
  rw [frames, List.range'_succ, List.filterMap_cons, isLeaf]
  rfl

theorem frames_update {value : Option Word}
    (stored : after.leaves root = update (memory.leaves root) first value) :
    after.frames root (first + 1) count = memory.frames root (first + 1) count := by
  apply List.filterMap_congr
  intro n isMember
  have above := (List.mem_range'_1.mp isMember).1
  rw [stored, update_of_ne (by omega)]

end Memory

/-- Pages that may be freed: they are different, in use, and no tables. -/
structure Freeable (memory : Memory) (root : Nat) (pages : List Nat) : Prop where
  nodup : pages.Nodup
  taken : ∀ page ∈ pages, page ∉ memory.free
  outside : ∀ page ∈ pages, ∀ path, path.length ≤ 2 → memory.table root path ≠ some page
  inRange : ∀ page ∈ pages, memory.kernelEnd ≤ page * PGSIZE ∧ page * PGSIZE < PHYSTOP

theorem PTE2PA_aligned (pte : Word) : (PTE2PA pte).toNat = pageOf (PTE2PA pte) * PGSIZE := by
  rw [pageOf, PTE2PA, BitVec.toNat_shiftLeft, BitVec.toNat_ushiftRight, Nat.shiftLeft_eq, PGSIZE]
  omega

theorem kfree_wp {memory : Memory} (aligned : pa.toNat = pageOf pa * PGSIZE)
    (above : memory.kernelEnd ≤ pageOf pa * PGSIZE) (below : pageOf pa * PGSIZE < PHYSTOP) :
    Wp (kfree pa) memory fun _ after => after = memory.release (pageOf pa) := by
  have accepted : ¬ (pa.toNat % PGSIZE ≠ 0 ∨ pa.toNat < memory.kernelEnd ∨ PHYSTOP ≤ pa.toNat) := by
    rw [aligned, Nat.mul_mod_left]
    omega
  simp only [kfree, wp_bind, wp_get, wp_ite, if_neg accepted, memset, wp_modify]
  rfl

section

variable {memory : Memory} {root : Nat}
  (outside : ∀ path, path.length ≤ 2 → memory.table root path ≠ some page)

include outside

theorem table_release {place : List Index} (short : place.length ≤ 2) :
    (memory.release page).table root place = memory.table root place := by
  apply follow_of_outside outside _ short
  intro other different
  exact memory.fill_words_of_ne _ different

theorem leaves_release : (memory.release page).leaves root = memory.leaves root := by
  apply leaves_congr
  intro va
  rw [Memory.leaf, Memory.leaf, table_release outside (length_path_le va)]
  cases isTable : memory.table root (path va) with
  | none => rfl
  | some other =>
    have different : other ≠ page := by
      intro same
      rw [same] at isTable
      exact outside (path va) (length_path_le va) isTable
    rw [Option.bind_some, Option.bind_some]
    exact congrArg mapped (congrFun (memory.fill_words_of_ne _ different) (PX 0 va))

theorem WellFormed.release (wellFormed : WellFormed memory root) (taken : page ∉ memory.free)
    (inRange : memory.kernelEnd ≤ page * PGSIZE ∧ page * PGSIZE < PHYSTOP) :
    WellFormed (memory.release page) root where
  separate := by
    intro first second other firstShort secondShort isFirst isSecond
    have atFirst := table_release outside firstShort
    have atSecond := table_release outside secondShort
    exact wellFormed.separate first second other firstShort secondShort
      (atFirst.symm.trans isFirst) (atSecond.symm.trans isSecond)
  taken := by
    intro place other short isOther
    rw [table_release outside short] at isOther
    intro isFree
    rcases List.mem_cons.mp isFree with same | isOld
    · rw [same] at isOther
      exact outside place short isOther
    · exact wellFormed.taken place other short isOther isOld
  nodup := List.nodup_cons.mpr ⟨taken, wellFormed.nodup⟩
  inRange := by
    intro other isFree
    rcases List.mem_cons.mp isFree with same | isOld
    · rw [same]
      exact inRange
    · exact wellFormed.inRange other isOld

end

/-- What `uvmunmap` does to memory. -/
structure Unmapped (root first count : Nat) (doFree : Bool) (before after : Memory) : Prop where
  wellFormed : WellFormed after root
  kernelEnd : after.kernelEnd = before.kernelEnd
  tables : ∀ path, path.length ≤ 2 → after.table root path = before.table root path
  leaves : after.leaves root = erase (before.leaves root) first count
  free : after.free =
    (if doFree then (before.frames root first count).reverse else []) ++ before.free
  others : ∀ page, (doFree = true → page ∉ before.frames root first count) →
    (∀ path, path.length ≤ 2 → before.table root path ≠ some page) →
    after.words page = before.words page

section

variable {memory : Memory} {root : Nat} {doFree : Bool}

section

variable (wellFormed : WellFormed memory root)
include wellFormed

/-- A page is freed if `doFree` says so. -/
theorem releases (freeable : doFree = true → Freeable memory root [page])
    (isBase : base = if doFree then memory.release page else memory) :
    WellFormed base root ∧ base.kernelEnd = memory.kernelEnd ∧
      (∀ path, path.length ≤ 2 → base.table root path = memory.table root path) ∧
      base.leaves root = memory.leaves root ∧
      base.free = (if doFree then [page] else []) ++ memory.free ∧
      ∀ other, (doFree = true → other ∉ [page]) → base.words other = memory.words other := by
  cases doFree with
  | false =>
    rw [isBase]
    exact ⟨wellFormed, rfl, fun _ _ => rfl, rfl, rfl, fun _ _ => rfl⟩
  | true =>
    have isSingle := List.mem_singleton_self page
    have free := freeable rfl
    have outside := free.outside page isSingle
    rw [isBase]
    refine ⟨wellFormed.release outside (free.taken page isSingle) (free.inRange page isSingle), rfl,
      fun path short => table_release outside short, leaves_release outside, rfl, ?_⟩
    intro other different
    apply memory.fill_words_of_ne
    intro same
    exact different rfl (List.mem_singleton.mpr same)

/-- One round of the loop: the page is freed or not, and its entry is cleared. -/
theorem Unmapped.single
    (inside : n < MAXVA / PGSIZE) (isPage : memory.table root (path (n * PGSIZE)) = some page)
    (isLeaf : memory.leaves root n = some pte)
    (freeable : doFree = true → Freeable memory root [pageOf (PTE2PA pte)])
    (isBase : base = if doFree then memory.release (pageOf (PTE2PA pte)) else memory) :
    Unmapped root n 1 doFree memory (base.store page (PX 0 (n * PGSIZE)) 0) := by
  have frame : memory.frames root n 1 = [pageOf (PTE2PA pte)] := by
    rw [frames_succ isLeaf]
    rfl
  rcases releases wellFormed freeable isBase with
    ⟨baseFormed, sameEnd, sameTables, sameLeaves, isFree, sameWords⟩
  have isBasePage := (sameTables _ (length_path_le (n * PGSIZE))).trans isPage
  have grows := baseFormed.grows_store isBasePage 0
  refine
    { wellFormed := grows.wellFormed
      kernelEnd := sameEnd
      tables := ?_
      leaves := ?_
      free := ?_
      others := ?_ }
  · intro place short
    rw [baseFormed.table_store isBasePage 0 short, sameTables place short]
  · rw [baseFormed.leaves_store inside isBasePage, sameLeaves, mapped_of_invalid valid_zero,
      erase_succ, erase_zero]
  · rw [frame]
    exact isFree
  · intro other notFrame outside
    rw [frame] at notFrame
    have different : other ≠ page := by
      intro same
      rw [same] at outside
      exact outside _ (length_path_le (n * PGSIZE)) isPage
    rw [store_words_of_ne _ _ different, sameWords other notFrame]

theorem Unmapped.refl (first : Nat) (doFree : Bool) :
    Unmapped root first 0 doFree memory memory where
  wellFormed := wellFormed
  kernelEnd := rfl
  tables := fun _ _ => rfl
  leaves := erase_zero.symm
  free := by cases doFree <;> rfl
  others := fun _ _ _ => rfl

end

theorem Unmapped.frames_rest (head : Unmapped root first 1 doFree before after) :
    after.frames root (first + 1) count = before.frames root (first + 1) count := by
  apply frames_update
  rw [head.leaves, erase_succ, erase_zero]

theorem Unmapped.cons (isLeaf : before.leaves root first = some pte)
    (head : Unmapped root first 1 doFree before middle)
    (rest : Unmapped root (first + 1) count doFree middle after) :
    Unmapped root first (count + 1) doFree before after := by
  have frame : before.frames root first 1 = [pageOf (PTE2PA pte)] := by
    rw [frames_succ isLeaf]
    rfl
  refine
    { wellFormed := rest.wellFormed
      kernelEnd := rest.kernelEnd.trans head.kernelEnd
      tables := fun path short => (rest.tables path short).trans (head.tables path short)
      leaves := ?_
      free := ?_
      others := ?_ }
  · rw [rest.leaves, head.leaves, erase_succ, erase_zero, ← erase_succ]
  · rw [rest.free, head.free, head.frames_rest, frame, frames_succ isLeaf]
    cases doFree with
    | false => rfl
    | true =>
      simp
  · intro page notFrame outside
    rw [frames_succ isLeaf] at notFrame
    rw [rest.others page, head.others page _ outside]
    · intro isFreed isMember
      rw [frame, List.mem_singleton] at isMember
      rw [isMember] at notFrame
      exact notFrame isFreed List.mem_cons_self
    · intro isFreed isMember
      rw [head.frames_rest] at isMember
      exact notFrame isFreed (List.mem_cons_of_mem _ isMember)
    · intro path short
      rw [head.tables path short]
      exact outside path short

/-- After the first page the others may still be freed. -/
theorem Freeable.rest (freeable : Freeable memory root (memory.frames root first (count + 1)))
    (isLeaf : memory.leaves root first = some pte)
    (head : Unmapped root first 1 true memory middle) :
    Freeable middle root (middle.frames root (first + 1) count) := by
  have frame : memory.frames root first 1 = [pageOf (PTE2PA pte)] := by
    rw [frames_succ isLeaf]
    rfl
  rw [frames_succ isLeaf] at freeable
  have nodup := List.nodup_cons.mp freeable.nodup
  rw [head.frames_rest]
  refine ⟨nodup.2, ?_, ?_, ?_⟩
  · intro page isMember isFree
    rw [head.free, frame] at isFree
    rcases List.mem_cons.mp isFree with same | isOld
    · rw [same] at isMember
      exact nodup.1 isMember
    · exact freeable.taken page (List.mem_cons_of_mem _ isMember) isOld
  · intro page isMember path short
    rw [head.tables path short]
    exact freeable.outside page (List.mem_cons_of_mem _ isMember) path short
  · intro page isMember
    rw [head.kernelEnd]
    exact freeable.inRange page (List.mem_cons_of_mem _ isMember)

theorem Freeable.head {pages : List Nat}
    (freeable : Freeable memory root (page :: pages)) : Freeable memory root [page] := by
  have first : ∀ other ∈ [page], other ∈ page :: pages := by
    intro other isMember
    rw [List.mem_singleton.mp isMember]
    exact List.mem_cons_self
  exact ⟨List.nodup_singleton page, fun other isMember => freeable.taken other (first other isMember),
    fun other isMember => freeable.outside other (first other isMember),
    fun other isMember => freeable.inRange other (first other isMember)⟩

variable (wellFormed : WellFormed memory root) (inside : first + count ≤ MAXVA / PGSIZE)
include wellFormed inside

theorem uvmunmapFrom_wp {fuel : Nat} (enough : count < fuel)
    (leaves : ∀ i, i < count → ∃ pte, memory.leaves root (first + i) = some pte ∧
      PTE_FLAGS pte ≠ PTE_V)
    (freeable : doFree = true → Freeable memory root (memory.frames root first count)) :
    Wp (uvmunmapFrom root ((first + count) * PGSIZE) doFree fuel (first * PGSIZE)) memory
      fun _ => Unmapped root first count doFree memory := by
  induction fuel generalizing memory first count with
  | zero => exact absurd enough (Nat.not_lt_zero count)
  | succ fuel ih =>
    cases count with
    | zero =>
      simp only [uvmunmapFrom, Nat.add_zero, Nat.lt_irrefl, if_false, wp_pure]
      exact Unmapped.refl wellFormed first doFree
    | succ count =>
      have firstInside : first < MAXVA / PGSIZE := by omega
      have more : first * PGSIZE < (first + (count + 1)) * PGSIZE := by
        simp only [PGSIZE]
        omega
      have last : first + (count + 1) = first + 1 + count := by omega
      rcases leaves 0 (Nat.succ_pos count) with ⟨pte, isLeaf, isProper⟩
      rw [Nat.add_zero] at isLeaf
      rcases of_leaves firstInside isLeaf with ⟨page, isPage, isEntry, isValid⟩
      have firstFreeable : doFree = true → Freeable memory root [pageOf (PTE2PA pte)] := by
        intro isFreed
        have all := freeable isFreed
        rw [frames_succ isLeaf] at all
        exact all.head
      rw [uvmunmapFrom, if_pos more, wp_bind]
      apply (walk_false_wp memory root (address_lt firstInside)).imp
      rintro result middle ⟨isMemory, isResult⟩
      rw [isMemory, isResult, isPage]
      simp only [Option.map_some, wp_bind, wp_get, wp_ite, isEntry, isValid, isProper,
        Bool.true_eq_false, if_false]
      have round : ∀ base,
          base = (if doFree then memory.release (pageOf (PTE2PA pte)) else memory) →
          Wp (uvmunmapFrom root ((first + (count + 1)) * PGSIZE) doFree fuel
              (first * PGSIZE + PGSIZE))
            (base.store page (PX 0 (first * PGSIZE)) 0)
            fun _ => Unmapped root first (count + 1) doFree memory := by
        intro base isBase
        have head := Unmapped.single wellFormed firstInside isPage isLeaf firstFreeable isBase
        rw [last, ← Nat.succ_mul]
        apply (ih head.wellFormed (by omega) (by omega) _ _).imp
        · intro _ after rest
          exact Unmapped.cons isLeaf head rest
        · intro i isRest
          rw [head.leaves, erase, if_neg (by omega), Nat.add_assoc, Nat.add_comm 1 i]
          exact leaves (i + 1) (by omega)
        · intro isFreed
          subst isFreed
          exact (freeable rfl).rest isLeaf head
      split
      · rename_i isFreed
        have range := (firstFreeable isFreed).inRange _ (List.mem_singleton_self _)
        apply (kfree_wp (PTE2PA_aligned pte) range.1 range.2).imp
        intro _ after isReleased
        rw [setEntry, wp_modify]
        apply round
        rw [isReleased, if_pos isFreed]
      · rename_i notFreed
        rw [setEntry, wp_modify]
        apply round
        rw [if_neg notFreed]

theorem uvmunmap_wp (leaves : ∀ i, i < count → ∃ pte, memory.leaves root (first + i) = some pte ∧
      PTE_FLAGS pte ≠ PTE_V)
    (freeable : doFree = true → Freeable memory root (memory.frames root first count)) :
    Wp (uvmunmap root (first * PGSIZE) count doFree) memory
      fun _ => Unmapped root first count doFree memory := by
  have bound : (first * PGSIZE + count * PGSIZE) % 2 ^ 64 = (first + count) * PGSIZE := by
    simp only [MAXVA, PGSIZE] at *
    omega
  have aligned : ¬ first * PGSIZE % PGSIZE ≠ 0 := by
    rw [Nat.mul_mod_left]
    exact fun different => different rfl
  rw [uvmunmap, if_neg aligned, bound]
  exact uvmunmapFrom_wp wellFormed inside (Nat.lt_succ_of_le (by omega)) leaves freeable

end

/-! ## Page tables implement finite maps -/

/-- The physical address and the flags of the `i`-th page of a range. -/
def pageAt (pa perm : Word) (i : Nat) : Nat × Word :=
  (PGROUNDDOWN (pa + BitVec.ofNat 64 (i * PGSIZE)).toNat, perm ||| PTE_V)

namespace Memory

variable {memory : Memory} {root : Nat}

theorem pages_assign (small : perm.toNat < 2 ^ 10)
    (isMap : after.leaves root = assign (memory.leaves root) first count (entryAt pa perm)) :
    after.pages root = assign (memory.pages root) first count (pageAt pa perm) := by
  have decoded : (fun i => ((PTE2PA (entryAt pa perm i)).toNat, PTE_FLAGS (entryAt pa perm i))) =
      pageAt pa perm := by
    funext i
    have flags := toNat_or_PTE_V_lt small
    rw [entryAt, BitVec.or_assoc, PTE2PA_PA2PTE _ flags, PTE_FLAGS_PA2PTE _ flags, pageAt]
  have converted := map_assign (memory.leaves root) first count (entryAt pa perm) fun pte =>
    ((PTE2PA pte).toNat, PTE_FLAGS pte)
  rw [decoded, ← isMap] at converted
  exact converted

theorem pages_erase (isMap : after.leaves root = erase (memory.leaves root) first count) :
    after.pages root = erase (memory.pages root) first count := by
  have converted := map_erase (memory.leaves root) first count fun pte =>
    ((PTE2PA pte).toNat, PTE_FLAGS pte)
  rw [← isMap] at converted
  exact converted

theorem pages_eq_none (unmapped : memory.pages root n = none) : memory.leaves root n = none :=
  Option.map_eq_none_iff.mp unmapped

theorem of_pages {pa : Nat} {flags : Word} (isMapped : memory.pages root n = some (pa, flags)) :
    ∃ pte, memory.leaves root n = some pte ∧ PTE_FLAGS pte = flags := by
  rcases Option.map_eq_some_iff.mp isMapped with ⟨pte, isLeaf, decoded⟩
  exact ⟨pte, isLeaf, congrArg Prod.snd decoded⟩

end Memory

variable {doFree : Bool}

section

variable {memory : Memory} {root : Nat}

theorem walk_changes_nothing (memory : Memory) (root va : Nat) :
    Wp (walk root va false) memory (fun _ after => after = memory) fun _ after => after = memory := by
  by_cases inside : va < MAXVA
  · apply (walk_false_wp memory root inside).mono
    · intro _ after unchanged
      exact unchanged.1
    · intro _ _ impossible
      exact impossible.elim
  · rw [walk, if_pos (Nat.not_lt.mp inside), wp_throw]

section

variable (wellFormed : WellFormed memory root)
include wellFormed

theorem walk_keeps_pages (inside : va < MAXVA) :
    Wp (walk root va true) memory
      fun _ after => WellFormed after root ∧ after.pages root = memory.pages root := by
  apply (walk_true_wp wellFormed inside).imp
  rintro _ after ⟨grows, sameLeaves, _⟩
  refine ⟨grows.wellFormed, ?_⟩
  funext n
  rw [Memory.pages, Memory.pages, leaves_congr sameLeaves]

theorem mappages_assigns (pa : Word) (positive : 0 < size) (inside : va + size ≤ MAXVA)
    (small : perm.toNat < 2 ^ 10)
    (unmapped : ∀ i, i < span va size → memory.pages root (va / PGSIZE + i) = none) :
    Wp (mappages root va size pa perm) memory
      fun result after => WellFormed after root ∧
        (result = 0 ∧ after.pages root =
            assign (memory.pages root) (va / PGSIZE) (span va size) (pageAt pa perm) ∨
          result = -1 ∧ ∃ done, done < span va size ∧ after.pages root =
            assign (memory.pages root) (va / PGSIZE) done (pageAt pa perm)) := by
  apply (mappages_wp wellFormed pa perm positive inside fun i isPart =>
    pages_eq_none (unmapped i isPart)).imp
  rintro result after ⟨grows, ⟨isDone, isMap⟩ | ⟨isFailed, _, done, isPart, isMap⟩⟩
  · exact ⟨grows.wellFormed, Or.inl ⟨isDone, pages_assign small isMap⟩⟩
  · exact ⟨grows.wellFormed, Or.inr ⟨isFailed, done, isPart, pages_assign small isMap⟩⟩

theorem uvmunmap_erases (inside : first + count ≤ MAXVA / PGSIZE)
    (isMapped : ∀ i, i < count → ∃ pa flags, memory.pages root (first + i) = some (pa, flags) ∧
      flags ≠ PTE_V)
    (freeable : doFree = true → Freeable memory root (memory.frames root first count)) :
    Wp (uvmunmap root (first * PGSIZE) count doFree) memory
      fun _ after => WellFormed after root ∧
        after.pages root = erase (memory.pages root) first count := by
  apply (uvmunmap_wp wellFormed inside _ freeable).imp
  · intro _ after unmapped
    exact ⟨unmapped.wellFormed, pages_erase unmapped.leaves⟩
  · intro i isPart
    rcases isMapped i isPart with ⟨pa, flags, isPage, isProper⟩
    rcases of_pages isPage with ⟨pte, isLeaf, rfl⟩
    exact ⟨pte, isLeaf, isProper⟩

end

theorem span_le (positive : 0 < size) (inside : va + size ≤ MAXVA) :
    va / PGSIZE + span va size ≤ MAXVA / PGSIZE := by
  simp only [span, MAXVA, PGSIZE] at *
  omega

theorem unmap_restores (wellFormed : WellFormed memory root)
    (positive : 0 < size) (inside : va + size ≤ MAXVA) (small : perm.toNat < 2 ^ 10)
    (proper : perm ||| PTE_V ≠ PTE_V)
    (unmapped : ∀ i, i < span va size → memory.pages root (va / PGSIZE + i) = none)
    (ran : (mappages root va size pa perm).run memory = .ok 0 middle)
    (freeable : doFree = true →
      Freeable middle root (middle.frames root (va / PGSIZE) (span va size))) :
    Wp (uvmunmap root (PGROUNDDOWN va) (span va size) doFree) middle
      fun _ after => WellFormed after root ∧ after.pages root = memory.pages root := by
  have assigned := mappages_assigns wellFormed pa positive inside small unmapped
  rw [wp_of_run ran] at assigned
  rcases assigned with ⟨middleFormed, ⟨_, isMap⟩ | ⟨impossible, _⟩⟩
  · apply (uvmunmap_erases middleFormed (span_le positive inside) _ freeable).imp
    · intro _ after ⟨afterFormed, isErased⟩
      refine ⟨afterFormed, ?_⟩
      rw [isErased, isMap, erase_assign unmapped]
    · intro i isPart
      refine ⟨(pageAt pa perm i).1, perm ||| PTE_V, ?_, proper⟩
      rw [isMap, assign, if_pos (by omega), Nat.add_sub_cancel_left]
      rfl
  · cases impossible

/-- A table without entries is well formed. -/
theorem WellFormed.empty (isEmpty : ∀ index, valid (memory.words root index) = false)
    (taken : root ∉ memory.free) (nodup : memory.free.Nodup)
    (inRange : ∀ page ∈ memory.free, memory.kernelEnd ≤ page * PGSIZE ∧ page * PGSIZE < PHYSTOP) :
    WellFormed memory root := by
  have only : ∀ path page, memory.table root path = some page → path = [] ∧ root = page := by
    intro path page isPage
    cases path with
    | nil => exact ⟨rfl, Option.some.inj isPage⟩
    | cons index rest =>
      rw [Memory.table, follow, child_of_invalid (isEmpty index)] at isPage
      cases isPage
  refine ⟨?_, ?_, nodup, inRange⟩
  · intro first second page _ _ isFirst isSecond
    rw [(only first page isFirst).1, (only second page isSecond).1]
  · intro path page _ isPage
    rw [← (only path page isPage).2]
    exact taken

end

/-- A page table stands for a finite map.  A range of pages that have no leaf is
mapped, or the first pages of it; a range of pages whose entries have a flag
besides `PTE_V` is unmapped; and both leave the table well formed.  The pages
that `uvmunmap` frees must be pages of the allocator that nobody else has. -/
theorem page_table_implements_map {memory : Memory} {root : Nat}
    (wellFormed : WellFormed memory root) :
    (∀ va, Wp (walk root va false) memory (fun _ after => after = memory)
      fun _ after => after = memory) ∧
    (∀ va, va < MAXVA → Wp (walk root va true) memory
      fun _ after => WellFormed after root ∧ after.pages root = memory.pages root) ∧
    (∀ va size pa perm, 0 < size → va + size ≤ MAXVA → perm.toNat < 2 ^ 10 →
      (∀ i, i < span va size → memory.pages root (va / PGSIZE + i) = none) →
      Wp (mappages root va size pa perm) memory
        fun result after => WellFormed after root ∧
          (result = 0 ∧ after.pages root =
              assign (memory.pages root) (va / PGSIZE) (span va size) (pageAt pa perm) ∨
            result = -1 ∧ ∃ done, done < span va size ∧ after.pages root =
              assign (memory.pages root) (va / PGSIZE) done (pageAt pa perm))) ∧
    (∀ first count doFree, first + count ≤ MAXVA / PGSIZE →
      (∀ i, i < count → ∃ pa flags, memory.pages root (first + i) = some (pa, flags) ∧
        flags ≠ PTE_V) →
      (doFree = true → Freeable memory root (memory.frames root first count)) →
      Wp (uvmunmap root (first * PGSIZE) count doFree) memory
        fun _ after => WellFormed after root ∧
          after.pages root = erase (memory.pages root) first count) ∧
    (∀ va size pa perm middle doFree, 0 < size → va + size ≤ MAXVA → perm.toNat < 2 ^ 10 →
      perm ||| PTE_V ≠ PTE_V →
      (∀ i, i < span va size → memory.pages root (va / PGSIZE + i) = none) →
      (mappages root va size pa perm).run memory = .ok 0 middle →
      (doFree = true → Freeable middle root (middle.frames root (va / PGSIZE) (span va size))) →
      Wp (uvmunmap root (PGROUNDDOWN va) (span va size) doFree) middle
        fun _ after => WellFormed after root ∧ after.pages root = memory.pages root) := by
  refine ⟨?_, ?_, ?_, ?_, ?_⟩
  · intro va
    exact walk_changes_nothing memory root va
  · intro va inside
    exact walk_keeps_pages wellFormed inside
  · intro va size pa perm positive inside small unmapped
    exact mappages_assigns wellFormed pa positive inside small unmapped
  · intro first count doFree inside isMapped freeable
    exact uvmunmap_erases wellFormed inside isMapped freeable
  · intro va size pa perm middle doFree positive inside small proper unmapped ran freeable
    exact unmap_restores wellFormed positive inside small proper unmapped ran freeable

namespace Sample

/-- Page 1 holds an empty table, and three pages of the allocator are free. -/
def memory : Memory where
  words := fun _ _ => 0
  free := [0x80002, 0x80003, 0x80004]
  kernelEnd := 0x80002000

theorem wellFormed : WellFormed memory 1 :=
  WellFormed.empty (fun _ => valid_zero) (by decide) (by decide) (by decide)

end Sample

/-- The two pages are in different tables, and the free pages are just enough. -/
theorem page_table_implements_map_mapTwo :
    ∃ after, (mappages 1 0x1FF800 4096 0x80010000 (PTE_R ||| PTE_U)).run Sample.memory = .ok 0 after ∧
      after.pages 1 =
        assign (Sample.memory.pages 1) 0x1FF 2 (pageAt 0x80010000 (PTE_R ||| PTE_U)) := by
  have succeeds : Wp (mappages 1 0x1FF800 4096 0x80010000 (PTE_R ||| PTE_U)) Sample.memory
      fun result _ => result = 0 := by
    decide +kernel
  have assigns := (page_table_implements_map Sample.wellFormed).2.2.1 0x1FF800 4096 0x80010000
    (PTE_R ||| PTE_U) (by decide) (by decide) (by decide) (by decide +kernel)
  rcases wp_false_iff.mp succeeds with ⟨result, after, ran, rfl⟩
  rw [wp_of_run ran] at assigns
  rcases assigns.2 with ⟨_, isMap⟩ | ⟨impossible, _⟩
  · exact ⟨after, ran, isMap⟩
  · cases impossible

/-- A page that is mapped without permissions is taken for a table by
`uvmunmap`. -/
theorem withoutPermission_not_unmapped :
    WellFormed Sample.memory 1 ∧
      Wp (mappages 1 0x1000 4096 0x80010000 0) Sample.memory
        fun result after => result = 0 ∧ after.pages 1 1 = some (0x80010000, PTE_V) ∧
          Wp (uvmunmap 1 0x1000 1 false) after (fun _ _ => False)
            fun stop _ => stop = .uvmunmapNotALeaf :=
  ⟨Sample.wellFormed, by decide +kernel⟩

end Vm
end Xv6
