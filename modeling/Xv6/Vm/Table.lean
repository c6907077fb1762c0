import Xv6.Foundation.Radix
import Xv6.Vm.Memory

namespace Xv6
namespace Vm

open Foundation Function Memory

/-!
# Page tables as finite maps

A page table of three levels is a radix tree whose last level holds the leaves.
-/

/-! ## Entries -/

theorem getLsbD_PTE_V (i : Nat) : PTE_V.getLsbD i = decide (i = 0) := by
  rw [PTE_V]
  cases i with
  | zero => rfl
  | succ i => simp [BitVec.getLsbD_one]

theorem valid_eq_getLsbD (pte : Word) : valid pte = pte.getLsbD 0 := by
  have bit : pte &&& PTE_V = if pte.getLsbD 0 then PTE_V else 0 := by
    apply BitVec.eq_of_getLsbD_eq
    intro i inside
    rw [BitVec.getLsbD_and, getLsbD_PTE_V]
    by_cases first : i = 0
    · subst first
      cases pte.getLsbD 0 <;> decide
    · cases pte.getLsbD 0 <;> simp [first, getLsbD_PTE_V]
  rw [valid, bit]
  cases pte.getLsbD 0 <;> decide

theorem valid_or_PTE_V (word : Word) : valid (word ||| PTE_V) = true := by
  rw [valid_eq_getLsbD, BitVec.getLsbD_or, getLsbD_PTE_V]
  simp

theorem valid_zero : valid 0 = false := by
  decide

theorem toNat_or_PTE_V_lt {perm : Word} (small : perm.toNat < 2 ^ 10) :
    (perm ||| PTE_V).toNat < 2 ^ 10 := by
  rw [BitVec.toNat_or]
  exact Nat.or_lt_two_pow small (by decide)

variable {flags pte : Word}

theorem getLsbD_of_small (small : flags.toNat < 2 ^ 10) {i : Nat} (high : 10 ≤ i) :
    flags.getLsbD i = false := by
  rw [BitVec.getLsbD]
  apply Nat.testBit_lt_two_pow
  exact Nat.lt_of_lt_of_le small (Nat.pow_le_pow_right (by decide) high)

theorem getLsbD_PA2PTE (pa : Word) (i : Nat) :
    (PA2PTE pa).getLsbD i = (decide (10 ≤ i ∧ i < 64) && pa.getLsbD (i + 2)) := by
  rw [PA2PTE, BitVec.getLsbD_shiftLeft, BitVec.getLsbD_ushiftRight]
  by_cases low : i < 10
  · simp [low, Nat.not_le.mpr low]
  · have index : 12 + (i - 10) = i + 2 := by omega
    rw [index]
    by_cases inside : i < 64
    · simp [low, inside, Nat.not_lt.mp low]
    · simp [inside]

theorem PTE2PA_PA2PTE (pa : Word) (small : flags.toNat < 2 ^ 10) :
    (PTE2PA (PA2PTE pa ||| flags)).toNat = PGROUNDDOWN pa.toNat := by
  have rounded : PTE2PA (PA2PTE pa ||| flags) = (pa >>> 12) <<< 12 := by
    apply BitVec.eq_of_getLsbD_eq
    intro i inside
    rw [PTE2PA, BitVec.getLsbD_shiftLeft, BitVec.getLsbD_shiftLeft, BitVec.getLsbD_ushiftRight,
      BitVec.getLsbD_ushiftRight, BitVec.getLsbD_or, getLsbD_PA2PTE,
      getLsbD_of_small small (Nat.le_add_right 10 (i - 12))]
    by_cases low : i < 12
    · simp [low]
    · have index : 10 + (i - 12) + 2 = 12 + (i - 12) := by omega
      have bounds : 10 ≤ 10 + (i - 12) ∧ 10 + (i - 12) < 64 := by omega
      rw [index, decide_eq_true bounds, Bool.or_false, Bool.true_and]
  rw [rounded, BitVec.toNat_shiftLeft, BitVec.toNat_ushiftRight, Nat.shiftRight_eq_div_pow,
    Nat.shiftLeft_eq, PGROUNDDOWN, PGSIZE]
  have bound := pa.isLt
  omega

theorem PTE_FLAGS_PA2PTE (pa : Word) (small : flags.toNat < 2 ^ 10) :
    PTE_FLAGS (PA2PTE pa ||| flags) = flags := by
  have mask : ∀ i, (0x3FF : Word).getLsbD i = decide (i < 10) := by
    intro i
    have ones : (0x3FF : Word) = BitVec.ofNat 64 (2 ^ 10 - 1) := rfl
    rw [ones, BitVec.getLsbD_ofNat, Nat.testBit_two_pow_sub_one]
    by_cases low : i < 10
    · simp [low, Nat.lt_trans low (by decide : 10 < 64)]
    · simp [low]
  apply BitVec.eq_of_getLsbD_eq
  intro i inside
  rw [PTE_FLAGS, BitVec.getLsbD_and, BitVec.getLsbD_or, getLsbD_PA2PTE, mask]
  by_cases low : i < 10
  · simp [low, Nat.not_le.mpr low]
  · simp [low, getLsbD_of_small small (Nat.not_lt.mp low)]

variable {page n va other root : Nat}

theorem toNat_address (inside : page * PGSIZE < PHYSTOP) :
    (address page).toNat = page * PGSIZE := by
  rw [address, BitVec.toNat_ofNat]
  exact Nat.mod_eq_of_lt (Nat.lt_trans inside (by decide))

/-! ## The tables and the leaves -/

/-- The page table of the next level, if there is one. -/
def child (pte : Word) : Option Nat :=
  if valid pte then some (pageOf (PTE2PA pte)) else none

theorem child_of_invalid (invalid : valid pte = false) : child pte = none := by
  rw [child, invalid]
  rfl

theorem child_pointer (inside : page * PGSIZE < PHYSTOP) :
    child (PA2PTE (address page) ||| PTE_V) = some page := by
  rw [child, if_pos (valid_or_PTE_V _), pageOf, PTE2PA_PA2PTE _ (by decide), toNat_address inside,
    PGROUNDDOWN, Nat.mul_div_cancel _ (by decide), Nat.mul_div_cancel _ (by decide)]

/-- The indices of an address at the two levels above the leaves. -/
def path (va : Nat) : List Index :=
  [PX 2 va, PX 1 va]

theorem length_path_le (va : Nat) : (path va).length ≤ 2 :=
  Nat.le_refl 2

/-- An entry of the last level that is valid. -/
def mapped (pte : Word) : Option Word :=
  if valid pte then some pte else none

theorem mapped_of_invalid (invalid : valid pte = false) : mapped pte = none := by
  rw [mapped, invalid]
  rfl

theorem invalid_of_mapped (unmapped : mapped pte = none) : valid pte = false := by
  cases isValid : valid pte with
  | false => rfl
  | true =>
    rw [mapped, isValid] at unmapped
    cases unmapped

theorem of_mapped {value : Word} (isMapped : mapped pte = some value) :
    valid pte = true ∧ pte = value := by
  cases isValid : valid pte with
  | false =>
    rw [mapped_of_invalid isValid] at isMapped
    cases isMapped
  | true =>
    rw [mapped, isValid] at isMapped
    exact ⟨rfl, Option.some.inj isMapped⟩

namespace Memory

section

variable (memory : Memory) (root : Nat)

/-- The page table at the end of a path. -/
def table (path : List Index) : Option Nat :=
  follow child memory.words root path

/-- The leaf of an address. -/
def leaf (va : Nat) : Option Word :=
  (memory.table root (path va)).bind fun page => mapped (memory.words page (PX 0 va))

/-- The leaves by the numbers of the pages below `MAXVA`. -/
def leaves (n : Nat) : Option Word :=
  if n < MAXVA / PGSIZE then memory.leaf root (n * PGSIZE) else none

/-- The map that a page table stands for: the physical address and the flags of
each page below `MAXVA`. -/
def pages (n : Nat) : Option (Nat × Word) :=
  (memory.leaves root n).map fun pte => ((PTE2PA pte).toNat, PTE_FLAGS pte)

end

variable {memory after : Memory}

theorem leaves_of_lt (inside : n < MAXVA / PGSIZE) :
    memory.leaves root n = memory.leaf root (n * PGSIZE) :=
  if_pos inside

theorem of_leaves (inside : n < MAXVA / PGSIZE) (isLeaf : memory.leaves root n = some pte) :
    ∃ page, memory.table root (path (n * PGSIZE)) = some page ∧
      memory.words page (PX 0 (n * PGSIZE)) = pte ∧ valid pte = true := by
  rw [leaves_of_lt inside, leaf, Option.bind_eq_some_iff] at isLeaf
  rcases isLeaf with ⟨page, isPage, isMapped⟩
  rcases of_mapped isMapped with ⟨isValid, same⟩
  rw [same] at isValid
  exact ⟨page, isPage, same, isValid⟩

theorem leaves_congr (same : ∀ va, after.leaf root va = memory.leaf root va) :
    after.leaves root = memory.leaves root := by
  funext n
  rw [leaves, leaves, same]

end Memory

theorem samePage_of_indices (inside : va < MAXVA) (otherInside : other < MAXVA)
    (samePath : path va = path other) (sameIndex : PX 0 va = PX 0 other) :
    va / PGSIZE = other / PGSIZE := by
  simp only [path, PX, List.cons.injEq, and_true, Fin.ext_iff, Fin.val_ofNat] at samePath sameIndex
  simp only [MAXVA, PGSIZE] at *
  omega

theorem indices_of_samePage (same : va / PGSIZE = other / PGSIZE) :
    path va = path other ∧ PX 0 va = PX 0 other := by
  simp only [path, PX, List.cons.injEq, and_true, Fin.ext_iff, Fin.val_ofNat]
  simp only [PGSIZE] at *
  omega

/-! ## Well-formed tables -/

/-- The tables are different pages and none of them is free. -/
structure WellFormed (memory : Memory) (root : Nat) : Prop where
  separate : Separate child memory.words root 2
  taken : ∀ path page, path.length ≤ 2 → memory.table root path = some page → page ∉ memory.free
  nodup : memory.free.Nodup
  inRange : ∀ page ∈ memory.free, memory.kernelEnd ≤ page * PGSIZE ∧ page * PGSIZE < PHYSTOP

/-- What may happen to memory while a table gets new pages: it takes them from
the free list, keeps those it had, and no other page is written. -/
structure Grows (root : Nat) (before after : Memory) : Prop where
  wellFormed : WellFormed after root
  kernelEnd : after.kernelEnd = before.kernelEnd
  free : ∃ pages, before.free = pages ++ after.free ∧
    ∀ page ∈ pages, ∃ path, path.length ≤ 2 ∧ after.table root path = some page
  kept : ∀ path page, path.length ≤ 2 → before.table root path = some page →
    after.table root path = some page
  added : ∀ path page, path.length ≤ 2 → after.table root path = some page →
    before.table root path = some page ∨ page ∈ before.free
  others : ∀ page, page ∉ before.free →
    (∀ path, path.length ≤ 2 → before.table root path ≠ some page) →
    after.words page = before.words page

namespace Grows

variable {before middle after : Memory}

theorem refl (wellFormed : WellFormed before root) : Grows root before before where
  wellFormed := wellFormed
  kernelEnd := rfl
  free := ⟨[], rfl, fun _ isMember => absurd isMember List.not_mem_nil⟩
  kept := fun _ _ _ isPage => isPage
  added := fun _ _ _ isPage => Or.inl isPage
  others := fun _ _ _ => rfl

theorem free_subset (grows : Grows root before after) (isFree : page ∈ after.free) :
    page ∈ before.free := by
  rcases grows.free with ⟨pages, split, _⟩
  rw [split]
  exact List.mem_append_right pages isFree

theorem trans (first : Grows root before middle) (second : Grows root middle after) :
    Grows root before after where
  wellFormed := second.wellFormed
  kernelEnd := second.kernelEnd.trans first.kernelEnd
  free := by
    rcases first.free with ⟨pages, split, found⟩
    rcases second.free with ⟨more, splitMore, foundMore⟩
    refine ⟨pages ++ more, ?_, ?_⟩
    · rw [split, splitMore, List.append_assoc]
    · intro page isMember
      rcases List.mem_append.mp isMember with isFirst | isSecond
      · rcases found page isFirst with ⟨path, short, isPage⟩
        exact ⟨path, short, second.kept path page short isPage⟩
      · exact foundMore page isSecond
  kept := fun path page short isPage =>
    second.kept path page short (first.kept path page short isPage)
  added := by
    intro path page short isPage
    rcases second.added path page short isPage with old | isFree
    · exact first.added path page short old
    · exact Or.inr (first.free_subset isFree)
  others := by
    intro page notFree outside
    rw [second.others page, first.others page notFree outside]
    · intro isFree
      exact notFree (first.free_subset isFree)
    · intro path short isPage
      rcases first.added path page short isPage with old | isFree
      · exact outside path short old
      · exact notFree isFree

end Grows

variable {place : List Index}

namespace WellFormed

variable {memory : Memory}

/-! ### An entry of the last level is assigned -/

section

variable (wellFormed : WellFormed memory root)
include wellFormed

section

variable (isPage : memory.table root (path va) = some page) (value : Word)
include isPage

theorem table_store (short : place.length ≤ 2) :
    (memory.store page (PX 0 va) value).table root place = memory.table root place := by
  apply follow_of_last wellFormed.separate rfl isPage _ short
  intro other different
  exact update_of_ne different _ _

theorem grows_store : Grows root memory (memory.store page (PX 0 va) value) where
  wellFormed :=
    { separate := by
        intro first second other firstShort secondShort isFirst isSecond
        have atFirst := wellFormed.table_store isPage value firstShort
        have atSecond := wellFormed.table_store isPage value secondShort
        exact wellFormed.separate first second other firstShort secondShort
          (atFirst.symm.trans isFirst) (atSecond.symm.trans isSecond)
      taken := by
        intro place other short isOther
        rw [wellFormed.table_store isPage value short] at isOther
        exact wellFormed.taken place other short isOther
      nodup := wellFormed.nodup
      inRange := wellFormed.inRange }
  kernelEnd := rfl
  free := ⟨[], rfl, fun _ isMember => absurd isMember List.not_mem_nil⟩
  kept := fun place other short isOther => (wellFormed.table_store isPage value short).trans isOther
  added := fun place other short isOther =>
    Or.inl ((wellFormed.table_store isPage value short).symm.trans isOther)
  others := by
    intro other _ outside
    have different : other ≠ page := by
      intro same
      rw [same] at outside
      exact outside (path va) (length_path_le va) isPage
    exact update_of_ne different _ _

end

theorem leaf_store (inside : va < MAXVA)
    (isPage : memory.table root (path va) = some page) (value : Word)
    (otherInside : other < MAXVA) :
    (memory.store page (PX 0 va) value).leaf root other =
      if other / PGSIZE = va / PGSIZE then mapped value else memory.leaf root other := by
  rw [Memory.leaf, Memory.leaf, wellFormed.table_store isPage value (length_path_le other)]
  by_cases same : other / PGSIZE = va / PGSIZE
  · rw [if_pos same, (indices_of_samePage same).1, (indices_of_samePage same).2, isPage,
      Option.bind_some, store_words_self, update_self]
  · rw [if_neg same]
    cases isOther : memory.table root (path other) with
    | none => rfl
    | some otherPage =>
      rw [Option.bind_some, Option.bind_some]
      congr 1
      by_cases samePage : otherPage = page
      · subst samePage
        have samePath : path other = path va :=
          wellFormed.separate _ _ _ (length_path_le other) (length_path_le va) isOther isPage
        have differentIndex : PX 0 other ≠ PX 0 va := by
          intro sameIndex
          exact same (samePage_of_indices otherInside inside samePath sameIndex)
        rw [store_words_self, update_of_ne differentIndex]
      · rw [store_words_of_ne _ _ samePage]

theorem leaves_store (inside : n < MAXVA / PGSIZE)
    (isPage : memory.table root (path (n * PGSIZE)) = some page) (value : Word) :
    (memory.store page (PX 0 (n * PGSIZE)) value).leaves root =
      update (memory.leaves root) n (mapped value) := by
  have below : ∀ m, m < MAXVA / PGSIZE → m * PGSIZE < MAXVA := by
    intro m isBelow
    simp only [MAXVA, PGSIZE] at *
    omega
  funext m
  by_cases same : m = n
  · rw [same, update_self, leaves_of_lt inside,
      wellFormed.leaf_store (below n inside) isPage value (below n inside), if_pos rfl]
  · rw [update_of_ne same, Memory.leaves, Memory.leaves]
    split
    · rename_i isBelow
      rw [wellFormed.leaf_store (below n inside) isPage value (below m isBelow), if_neg]
      rw [Nat.mul_div_cancel _ (by decide), Nat.mul_div_cancel _ (by decide)]
      exact same
    · rfl

end

/-! ### A free page becomes a table -/

section

/-- The free page `fresh` is taken, cleared, and hung into the table `page`. -/
def graft (memory : Memory) (rest : List Nat) (page : Nat) (index : Index) (fresh : Nat) : Memory :=
  ((({ memory with free := rest } : Memory).fill fresh 0x0505050505050505).fill fresh 0).store page
    index (PA2PTE (address fresh) ||| PTE_V)

variable {index : Index} {fresh : Nat} {rest : List Nat}

theorem words_graft_fresh (different : fresh ≠ page) :
    (graft memory rest page index fresh).words fresh = fun _ => 0 := by
  rw [graft, store_words_of_ne _ _ different, fill_words_self]

theorem words_graft_page (different : page ≠ fresh) :
    (graft memory rest page index fresh).words page =
      update (memory.words page) index (PA2PTE (address fresh) ||| PTE_V) := by
  rw [graft, store_words_self, fill_words_of_ne _ _ different, fill_words_of_ne _ _ different]

theorem words_graft_of_ne (notPage : other ≠ page) (notFresh : other ≠ fresh) :
    (graft memory rest page index fresh).words other = memory.words other := by
  rw [graft, store_words_of_ne _ _ notPage, fill_words_of_ne _ _ notFresh,
    fill_words_of_ne _ _ notFresh]

section

variable (wellFormed : WellFormed memory root) (isFree : memory.free = fresh :: rest)
include wellFormed isFree

theorem fresh_outside
    {path : List Index} (short : path.length ≤ 2) : memory.table root path ≠ some fresh := by
  intro isFresh
  apply wellFormed.taken path fresh short isFresh
  rw [isFree]
  exact List.mem_cons_self

theorem fresh_ne
    (isPage : memory.table root place = some page) (short : place.length ≤ 2) : fresh ≠ page := by
  intro same
  rw [← same] at isPage
  exact wellFormed.fresh_outside isFree short isPage

theorem grafted (isPage : memory.table root place = some page) (inside : place.length < 2)
    (vacant : valid (memory.words page index) = false) :
    Grafted child memory.words (graft memory rest page index fresh).words root 2 place index page
      fresh := by
  have different := wellFormed.fresh_ne isFree isPage (Nat.le_of_lt inside)
  have range := wellFormed.inRange fresh (by rw [isFree]; exact List.mem_cons_self)
  refine
    { isPage := isPage
      inside := inside
      vacant := child_of_invalid vacant
      outside := fun path short => wellFormed.fresh_outside isFree short
      pointer := ?_
      siblings := ?_
      empty := ?_
      others := fun other notPage notFresh => words_graft_of_ne notPage notFresh }
  · rw [words_graft_page different.symm, update_self]
    exact child_pointer range.2
  · intro other isOther
    rw [words_graft_page different.symm, update_of_ne isOther]
  · intro other
    rw [words_graft_fresh different]
    exact child_of_invalid valid_zero

end

theorem table_vacant (isPage : memory.table root place = some page)
    (vacant : valid (memory.words page index) = false) :
    memory.table root (place ++ [index]) = none := by
  rw [Memory.table] at isPage
  rw [Memory.table, follow_concat, isPage]
  exact child_of_invalid vacant

variable (wellFormed : WellFormed memory root) (isFree : memory.free = fresh :: rest)
  (isPage : memory.table root place = some page) (inside : place.length < 2)
  (vacant : valid (memory.words page index) = false)
include wellFormed isFree isPage inside vacant

theorem table_graft {path : List Index} (short : path.length ≤ 2) :
    (graft memory rest page index fresh).table root path =
      if path = place ++ [index] then some fresh else memory.table root path :=
  (wellFormed.grafted isFree isPage inside vacant).follow_eq wellFormed.separate short

theorem grows_graft : Grows root memory (graft memory rest page index fresh) := by
  have grafted := wellFormed.grafted isFree isPage inside vacant
  have found := fun (path : List Index) (short : path.length ≤ 2) =>
    wellFormed.table_graft isFree isPage inside vacant short
  have nodup := wellFormed.nodup
  rw [isFree, List.nodup_cons] at nodup
  have isMember : fresh ∈ memory.free := by
    rw [isFree]
    exact List.mem_cons_self
  refine
    { wellFormed :=
        { separate := grafted.separate wellFormed.separate
          taken := ?_
          nodup := nodup.2
          inRange := ?_ }
      kernelEnd := rfl
      free := ?_
      kept := ?_
      added := ?_
      others := ?_ }
  · intro path other short isOther
    rw [found path short] at isOther
    split at isOther
    · cases isOther
      exact nodup.1
    · intro stillFree
      apply wellFormed.taken path other short isOther
      rw [isFree]
      exact List.mem_cons_of_mem fresh stillFree
  · intro other stillFree
    apply wellFormed.inRange other
    rw [isFree]
    exact List.mem_cons_of_mem fresh stillFree
  · refine ⟨[fresh], isFree, ?_⟩
    intro other isFresh
    rw [List.mem_singleton.mp isFresh]
    have short : (place ++ [index]).length ≤ 2 := by
      rw [List.length_append, List.length_singleton]
      omega
    exact ⟨place ++ [index], short, by rw [found _ short, if_pos rfl]⟩
  · intro path other short isOther
    rw [found path short, if_neg, isOther]
    intro here
    rw [here, table_vacant isPage vacant] at isOther
    cases isOther
  · intro path other short isOther
    rw [found path short] at isOther
    split at isOther
    · cases isOther
      exact Or.inr isMember
    · exact Or.inl isOther
  · intro other notFree outside
    apply grafted.others other
    · intro same
      rw [same] at outside
      exact outside place (Nat.le_of_lt inside) isPage
    · intro same
      rw [same] at notFree
      exact notFree isMember

theorem leaf_graft (va : Nat) :
    (graft memory rest page index fresh).leaf root va = memory.leaf root va := by
  have grafted := wellFormed.grafted isFree isPage inside vacant
  rw [Memory.leaf, Memory.leaf,
    wellFormed.table_graft isFree isPage inside vacant (length_path_le va)]
  by_cases here : path va = place ++ [index]
  · rw [if_pos here, here, table_vacant isPage vacant, Option.bind_some,
      words_graft_fresh (wellFormed.fresh_ne isFree isPage (Nat.le_of_lt inside))]
    exact mapped_of_invalid valid_zero
  · rw [if_neg here]
    cases isTable : memory.table root (path va) with
    | none => rfl
    | some other =>
      have notPage : other ≠ page := by
        intro same
        rw [same] at isTable
        have equal := wellFormed.separate _ _ _ (length_path_le va) (Nat.le_of_lt inside)
          isTable isPage
        rw [← equal] at inside
        exact absurd inside (Nat.lt_irrefl 2)
      have notFresh : other ≠ fresh := by
        intro same
        rw [same] at isTable
        exact grafted.outside _ (length_path_le va) isTable
      rw [Option.bind_some, Option.bind_some, grafted.others other notPage notFresh]

end

end WellFormed

/-! ## Walking -/

/-- The indices of an address from a level down to the leaves. -/
def indices (va : Nat) : Nat → List Index
  | 0 => []
  | level + 1 => PX (level + 1) va :: indices va level

theorem walkFrom_false_wp (memory : Memory) (va level pagetable : Nat) :
    Wp (walkFrom va false level pagetable) memory
      fun result after => after = memory ∧ result = memory.table pagetable (indices va level) := by
  induction level generalizing pagetable with
  | zero =>
    rw [walkFrom, wp_pure]
    exact ⟨rfl, rfl⟩
  | succ level ih =>
    simp only [walkFrom, wp_bind, wp_get, wp_ite, wp_pure, if_true]
    rw [indices, Memory.table, follow, child]
    split
    · exact ih _
    · exact ⟨trivial, rfl⟩

theorem walk_false_wp (memory : Memory) (root : Nat) (inside : va < MAXVA) :
    Wp (walk root va false) memory
      fun result after => after = memory ∧
        result = (memory.table root (path va)).map fun page => (page, PX 0 va) := by
  rw [walk, if_neg (Nat.not_le.mpr inside), wp_bind]
  apply (walkFrom_false_wp memory va 2 root).imp
  rintro result after ⟨rfl, isTable⟩
  have samePath : indices va 2 = path va := rfl
  rw [← samePath, ← isTable]
  cases result with
  | none | some page =>
    rw [wp_pure]
    exact ⟨rfl, rfl⟩

theorem kalloc_wp (memory : Memory) :
    Wp kalloc memory
      fun result after =>
        (result = none ∧ memory.free = [] ∧ after = memory) ∨
        ∃ page rest, result = some page ∧ memory.free = page :: rest ∧
          after = ({ memory with free := rest } : Memory).fill page 0x0505050505050505 := by
  simp only [kalloc, wp_bind, wp_get]
  cases isFree : memory.free with
  | nil =>
    rw [wp_pure]
    exact Or.inl ⟨rfl, rfl, rfl⟩
  | cons page rest =>
    simp only [memset, wp_bind, wp_modify, wp_pure]
    exact Or.inr ⟨page, rest, rfl, rfl, rfl⟩

variable {memory : Memory} (wellFormed : WellFormed memory root)
include wellFormed

/-- With allocation, missing tables are added until one is found or no page is
free.  No address gets a leaf. -/
theorem walkFrom_true_wp (va : Nat) {level pagetable : Nat}
    (isPage : memory.table root place = some pagetable) (length : place.length + level = 2) :
    Wp (walkFrom va true level pagetable) memory
      fun result after => Grows root memory after ∧
        (∀ other, after.leaf root other = memory.leaf root other) ∧
        (∀ page, result = some page → after.table root (place ++ indices va level) = some page) ∧
        (result = none → after.free = []) := by
  induction level generalizing memory pagetable place with
  | zero =>
    rw [walkFrom, wp_pure]
    refine ⟨Grows.refl wellFormed, fun _ => rfl, ?_, fun impossible => by cases impossible⟩
    intro page isResult
    rw [← Option.some.inj isResult, indices, List.append_nil, isPage]
  | succ level ih =>
    have step : place ++ indices va (level + 1) =
        place ++ [PX (level + 1) va] ++ indices va level := by
      rw [indices, List.append_assoc, List.singleton_append]
    have lengthNext : (place ++ [PX (level + 1) va]).length + level = 2 := by
      rw [List.length_append, List.length_singleton]
      omega
    simp only [walkFrom, wp_bind, wp_get, wp_ite, Bool.true_eq_false, if_false]
    rw [step]
    split
    · rename_i isValid
      apply ih wellFormed _ lengthNext
      rw [Memory.table] at isPage
      rw [Memory.table, follow_concat, isPage, Option.bind_some, child, if_pos isValid]
    · rename_i notValid
      have vacant := Bool.eq_false_iff.mpr notValid
      have inside : place.length < 2 := by omega
      apply (kalloc_wp memory).imp
      rintro result after (⟨rfl, isFree, rfl⟩ | ⟨fresh, rest, rfl, isFree, rfl⟩)
      · rw [wp_pure]
        exact ⟨Grows.refl wellFormed, fun _ => rfl, fun _ impossible => (by cases impossible),
          fun _ => isFree⟩
      · simp only [memset, setEntry, wp_bind, wp_modify]
        have grows := wellFormed.grows_graft isFree isPage inside vacant
        have found : (WellFormed.graft memory rest pagetable (PX (level + 1) va) fresh).table root
            (place ++ [PX (level + 1) va]) = some fresh := by
          rw [wellFormed.table_graft isFree isPage inside vacant (by omega), if_pos rfl]
        apply (ih grows.wellFormed found lengthNext).imp
        rintro result after ⟨growsMore, sameLeaves, isTable, isEmpty⟩
        refine ⟨grows.trans growsMore, ?_, isTable, isEmpty⟩
        intro other
        rw [sameLeaves other, wellFormed.leaf_graft isFree isPage inside vacant]

theorem walk_true_wp (inside : va < MAXVA) :
    Wp (walk root va true) memory
      fun result after => Grows root memory after ∧
        (∀ other, after.leaf root other = memory.leaf root other) ∧
        (∀ entry, result = some entry →
          after.table root (path va) = some entry.1 ∧ entry.2 = PX 0 va) ∧
        (result = none → after.free = []) := by
  have isRoot : memory.table root [] = some root := rfl
  rw [walk, if_neg (Nat.not_le.mpr inside), wp_bind]
  apply (walkFrom_true_wp wellFormed va isRoot rfl).imp
  rintro result after ⟨grows, sameLeaves, isTable, isEmpty⟩
  cases result with
  | none =>
    rw [wp_pure]
    exact ⟨grows, sameLeaves, fun _ impossible => (nomatch impossible), fun _ => isEmpty rfl⟩
  | some page =>
    rw [wp_pure]
    refine ⟨grows, sameLeaves, ?_, fun impossible => (nomatch impossible)⟩
    intro entry isEntry
    rw [← Option.some.inj isEntry]
    exact ⟨isTable page rfl, rfl⟩

end Vm
end Xv6
