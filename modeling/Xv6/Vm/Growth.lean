import Mathlib.Data.List.Perm.Subperm
import Xv6.Vm.Mapping

namespace Xv6
namespace Vm

open Foundation Function Memory

/-!
# Growing and shrinking a process

`growproc` of `kernel/proc.c` with `uvmalloc` and `uvmdealloc` of `kernel/vm.c`.
The size of a process is a 64-bit field, but `growproc` computes in a `uint`.

A page is apart from a table if it is in use and no page of the table; what the
loops keep of all such pages is what a process sees of its memory.
-/

def PGROUNDUP (sz : Nat) : Nat :=
  PGROUNDDOWN ((sz + (PGSIZE - 1)) % 2 ^ 64)

def TRAMPOLINE : Nat := MAXVA - PGSIZE

def TRAPFRAME : Nat := TRAMPOLINE - PGSIZE

/-- `PTE_W|PTE_X|PTE_R|PTE_U`. -/
def userPerm : Word := PTE_W ||| PTE_X ||| PTE_R ||| PTE_U

structure Proc where
  sz : Nat
  pagetable : Nat

def uvmdealloc (pagetable oldsz newsz : Nat) : Kernel Nat := do
  if oldsz ≤ newsz then return oldsz
  else
    if PGROUNDUP newsz < PGROUNDUP oldsz then
      let npages := BitVec.ofNat 32 ((PGROUNDUP oldsz - PGROUNDUP newsz) / PGSIZE)
      uvmunmap pagetable (PGROUNDUP newsz) (npages.signExtend 64).toNat true
    return newsz

/-- The loop of `uvmalloc`. -/
def uvmallocFrom (pagetable oldsz newsz : Nat) : (fuel a : Nat) → Kernel Nat
  | 0, _ => throw .walk
  | fuel + 1, a => do
      if a < newsz then
        match ← kalloc with
        | none =>
          discard (uvmdealloc pagetable a oldsz)
          return 0
        | some mem =>
          memset mem 0
          if (← mappages pagetable a PGSIZE (address mem) userPerm) ≠ 0 then
            kfree (address mem)
            discard (uvmdealloc pagetable a oldsz)
            return 0
          else uvmallocFrom pagetable oldsz newsz fuel (a + PGSIZE)
      else return newsz

def uvmalloc (pagetable oldsz newsz : Nat) : Kernel Nat := do
  if newsz < oldsz then return oldsz
  else uvmallocFrom pagetable (PGROUNDUP oldsz) newsz rounds (PGROUNDUP oldsz)

/-- `growproc(n)`, with the process as it is afterwards. -/
def growproc (p : Proc) (n : BitVec 32) : Kernel (Int × Proc) := do
  let sz := BitVec.ofNat 32 p.sz
  if 0 < n.toInt then
    let sz := (← uvmalloc p.pagetable sz.toNat (sz + n).toNat) % 2 ^ 32
    if sz = 0 then return (-1, p)
    else return (0, { p with sz })
  else if n.toInt < 0 then
    let sz := (← uvmdealloc p.pagetable sz.toNat (sz + n).toNat) % 2 ^ 32
    return (0, { p with sz })
  else return (0, { p with sz := sz.toNat })

/-! ## Sizes in pages -/

/-- The number of pages of a size. -/
def pagesOf (sz : Nat) : Nat :=
  (sz + (PGSIZE - 1)) / PGSIZE

variable {sz other n root page first count oldsz newsz va : Nat}

theorem PGROUNDUP_eq (inside : sz ≤ MAXVA) : PGROUNDUP sz = pagesOf sz * PGSIZE := by
  rw [PGROUNDUP, PGROUNDDOWN, pagesOf, Nat.mod_eq_of_lt]
  simp only [MAXVA, PGSIZE] at *
  omega

theorem pagesOf_mul (n : Nat) : pagesOf (n * PGSIZE) = n := by
  simp only [pagesOf, PGSIZE]
  omega

theorem pagesOf_mono (le : sz ≤ other) : pagesOf sz ≤ pagesOf other :=
  Nat.div_le_div_right (by omega)

theorem lt_pagesOf_iff : n < pagesOf sz ↔ n * PGSIZE < sz := by
  simp only [pagesOf, PGSIZE]
  omega

theorem signExtend_small (small : n < 2 ^ 31) : ((BitVec.ofNat 32 n).signExtend 64).toNat = n := by
  have positive : (BitVec.ofNat 32 n).msb = false := by
    rw [BitVec.msb_eq_decide, BitVec.toNat_ofNat]
    simp only [decide_eq_false_iff_not]
    omega
  rw [BitVec.signExtend_eq_setWidth_of_msb_false positive, BitVec.toNat_setWidth,
    BitVec.toNat_ofNat]
  omega

/-! ## Pages apart from a table -/

/-- A page that is in use, and not by the table. -/
def Apart (memory : Memory) (root page : Nat) : Prop :=
  page ∉ memory.free ∧ ∀ path, path.length ≤ 2 → memory.table root path ≠ some page

/-- Pages that are apart stay so, with their contents. -/
def Spared (root : Nat) (before after : Memory) : Prop :=
  ∀ page, Apart before root page → Apart after root page ∧ after.words page = before.words page

variable {before after : Memory}

theorem Spared.trans {middle : Memory} (first : Spared root before middle)
    (second : Spared root middle after) : Spared root before after := by
  intro page isApart
  rcases first page isApart with ⟨stillApart, sameFirst⟩
  exact ⟨(second page stillApart).1, (second page stillApart).2.trans sameFirst⟩

theorem Grows.spared (grows : Grows root before after) : Spared root before after := by
  rintro page ⟨taken, outside⟩
  refine ⟨⟨fun isFree => taken (grows.free_subset isFree), ?_⟩, grows.others page taken outside⟩
  intro path short isTable
  rcases grows.added path page short isTable with old | isFree
  · exact outside path short old
  · exact taken isFree

section

variable {memory : Memory} {rest : List Nat}

/-- The page that `kalloc` returns, cleared. -/
def Memory.take (memory : Memory) (rest : List Nat) (page : Nat) : Memory :=
  (({ memory with free := rest } : Memory).fill page 0x0505050505050505).fill page 0

theorem Memory.take_words_of_ne (different : other ≠ page) :
    (memory.take rest page).words other = memory.words other := by
  rw [Memory.take, fill_words_of_ne _ _ different, fill_words_of_ne _ _ different]

variable (wellFormed : WellFormed memory root) (isFree : memory.free = page :: rest)
include wellFormed isFree

theorem table_take {place : List Index} (short : place.length ≤ 2) :
    (memory.take rest page).table root place = memory.table root place :=
  follow_of_outside (fun _ isShort => wellFormed.fresh_outside isFree isShort)
    (fun _ different => take_words_of_ne different) short

theorem leaves_take : (memory.take rest page).leaves root = memory.leaves root := by
  apply leaves_congr
  intro va
  rw [Memory.leaf, Memory.leaf, table_take wellFormed isFree (length_path_le va)]
  cases isTable : memory.table root (path va) with
  | none => rfl
  | some other =>
    have different : other ≠ page :=
      (wellFormed.fresh_ne isFree isTable (length_path_le va)).symm
    rw [Option.bind_some, Option.bind_some, take_words_of_ne different]

theorem WellFormed.take : WellFormed (memory.take rest page) root where
  separate first second other firstShort secondShort isFirst isSecond :=
    wellFormed.separate first second other firstShort secondShort
      ((table_take wellFormed isFree firstShort).symm.trans isFirst)
      ((table_take wellFormed isFree secondShort).symm.trans isSecond)
  taken := by
    intro place other short isOther inRest
    rw [table_take wellFormed isFree short] at isOther
    exact wellFormed.taken place other short isOther (isFree ▸ List.mem_cons_of_mem _ inRest)
  nodup := (List.nodup_cons.mp (isFree ▸ wellFormed.nodup)).2
  inRange other inRest := wellFormed.inRange other (isFree ▸ List.mem_cons_of_mem _ inRest)

theorem spared_take : Spared root memory (memory.take rest page) := by
  rintro other ⟨taken, outside⟩
  rw [isFree] at taken
  refine ⟨⟨fun inRest => taken (List.mem_cons_of_mem _ inRest), fun path short isTable => ?_⟩,
    take_words_of_ne fun same => taken (same ▸ List.mem_cons_self)⟩
  rw [table_take wellFormed isFree short] at isTable
  exact outside path short isTable

theorem apart_take : Apart (memory.take rest page) root page := by
  refine ⟨(List.nodup_cons.mp (isFree ▸ wellFormed.nodup)).1, fun path short isTable => ?_⟩
  rw [table_take wellFormed isFree short] at isTable
  exact wellFormed.fresh_outside isFree short isTable

end

variable {pages : List Nat} {memory : Memory}

theorem Freeable.apart (freeable : Freeable memory root pages) (member : page ∈ pages) : Apart memory root page :=
  ⟨freeable.taken page member, freeable.outside page member⟩

theorem Freeable.of_append {first second : List Nat}
    (freeable : Freeable memory root (first ++ second)) : Freeable memory root second where
  nodup := (List.nodup_append.mp freeable.nodup).2.1
  taken page member := freeable.taken page (List.mem_append_right _ member)
  outside page member := freeable.outside page (List.mem_append_right _ member)
  inRange page member := freeable.inRange page (List.mem_append_right _ member)

theorem Unmapped.spared (unmapped : Unmapped root first count true before after)
    (isApart : Apart before root page) (kept : page ∉ before.frames root first count) :
    Apart after root page ∧ after.words page = before.words page := by
  refine ⟨⟨fun isFree => ?_, fun path short => ?_⟩, unmapped.others page (fun _ => kept) isApart.2⟩
  · rw [unmapped.free, if_pos rfl] at isFree
    rcases List.mem_append.mp isFree with freed | old
    · exact kept (List.mem_reverse.mp freed)
    · exact isApart.1 old
  · rw [unmapped.tables path short]
    exact isApart.2 path short

/-! ## Shrinking -/

theorem uvmdealloc_wp (wellFormed : WellFormed memory root) (shrinks : newsz < oldsz) (inside : oldsz ≤ MAXVA)
    (leaves : ∀ n, pagesOf newsz ≤ n → n < pagesOf oldsz →
      ∃ pte, memory.leaves root n = some pte ∧ PTE_FLAGS pte ≠ PTE_V)
    (freeable : Freeable memory root
      (memory.frames root (pagesOf newsz) (pagesOf oldsz - pagesOf newsz))) :
    Wp (uvmdealloc root oldsz newsz) memory
      fun result after => result = newsz ∧
        Unmapped root (pagesOf newsz) (pagesOf oldsz - pagesOf newsz) true memory after := by
  have le := pagesOf_mono (Nat.le_of_lt shrinks)
  have bound : pagesOf oldsz ≤ MAXVA / PGSIZE := by
    simp only [pagesOf, MAXVA, PGSIZE] at *
    omega
  simp only [uvmdealloc, if_neg (by omega : ¬ oldsz ≤ newsz), PGROUNDUP_eq inside,
    PGROUNDUP_eq (Nat.le_trans (Nat.le_of_lt shrinks) inside)]
  have pages : (pagesOf oldsz * PGSIZE - pagesOf newsz * PGSIZE) / PGSIZE =
      pagesOf oldsz - pagesOf newsz := by
    rw [← Nat.sub_mul, Nat.mul_div_cancel _ (by decide)]
  have small : pagesOf oldsz - pagesOf newsz < 2 ^ 31 :=
    Nat.lt_of_le_of_lt (Nat.le_trans (Nat.sub_le _ _) bound) (by decide)
  rw [pages, signExtend_small small]
  by_cases fewer : pagesOf newsz * PGSIZE < pagesOf oldsz * PGSIZE
  · rw [if_pos fewer, wp_bind]
    apply (uvmunmap_wp wellFormed (by omega) _ fun _ => freeable).imp
    · intro _ after unmapped
      exact (wp_pure newsz).mpr ⟨rfl, unmapped⟩
    · exact fun i isPart => leaves _ (by omega) (by omega)
  · have none : pagesOf oldsz - pagesOf newsz = 0 := by
      simp only [PGSIZE] at fewer
      omega
    rw [if_neg fewer, none]
    exact (wp_pure newsz).mpr ⟨rfl, Unmapped.refl wellFormed _ _⟩

/-! ## Growing -/

/-- The entry of a page of user memory. -/
def userEntry (page : Nat) : Word :=
  entryAt (address page) userPerm 0

theorem pageOf_userEntry (inside : page * PGSIZE < PHYSTOP) :
    pageOf (PTE2PA (userEntry page)) = page := by
  rw [userEntry, entryAt_zero, BitVec.or_assoc, pageOf,
    PTE2PA_PA2PTE (address page) (by decide : (userPerm ||| PTE_V).toNat < 2 ^ 10),
    toNat_address inside, PGROUNDDOWN, Nat.mul_div_cancel _ (by decide),
    Nat.mul_div_cancel _ (by decide)]

theorem flags_userEntry (page : Nat) : PTE_FLAGS (userEntry page) ≠ PTE_V := by
  rw [userEntry, entryAt_zero, BitVec.or_assoc,
    PTE_FLAGS_PA2PTE _ (by decide : (userPerm ||| PTE_V).toNat < 2 ^ 10)]
  decide

/-- The pages of the range have got cleared pages, and nothing else has changed
that is apart from the table. -/
structure Grown (root first count : Nat) (before after : Memory) : Prop where
  wellFormed : WellFormed after root
  kernelEnd : after.kernelEnd = before.kernelEnd
  leaves : ∀ n, n < first ∨ first + count ≤ n → after.leaves root n = before.leaves root n
  entries : ∀ n, first ≤ n → n < first + count → ∃ page, after.leaves root n = some (userEntry page)
  own : Freeable after root (after.frames root first count)
  cleared : ∀ page ∈ after.frames root first count,
    after.words page = (fun _ => 0) ∧ ¬ Apart before root page
  spared : Spared root before after

namespace Grown

variable {current : Memory} {rest : List Nat}

theorem refl (wellFormed : WellFormed before root) : Grown root first 0 before before where
  wellFormed := wellFormed
  kernelEnd := rfl
  leaves _ _ := rfl
  entries n above below := by omega
  own := ⟨List.nodup_nil, nofun, nofun, nofun⟩
  cleared := nofun
  spared _ isApart := ⟨isApart, rfl⟩

theorem frames_eq (sameLeaves : ∀ n, first ≤ n → n < first + count →
    after.leaves root n = current.leaves root n) :
    after.frames root first count = current.frames root first count := by
  refine List.filterMap_congr fun n member => ?_
  rcases List.mem_range'_1.mp member with ⟨above, below⟩
  rw [sameLeaves n above below]

variable (grown : Grown root first count before current)
include grown

theorem own_spared (sameEnd : after.kernelEnd = current.kernelEnd) (spared : Spared root current after)
    (frames : after.frames root first count = current.frames root first count) :
    Freeable after root (after.frames root first count) ∧
      ∀ page ∈ after.frames root first count,
        after.words page = (fun _ => 0) ∧ ¬ Apart before root page := by
  rw [frames]
  refine ⟨⟨grown.own.nodup, fun page member => (spared page (grown.own.apart member)).1.1,
    fun page member => (spared page (grown.own.apart member)).1.2, fun page member => ?_⟩, ?_⟩
  · rw [sameEnd]
    exact grown.own.inRange page member
  · intro page member
    rw [(spared page (grown.own.apart member)).2]
    exact grown.cleared page member

section

variable (isFree : current.free = page :: rest) (grows : Grows root (current.take rest page) after)
include isFree grows

/-- The next page is mapped. -/
theorem extend (isMap : after.leaves root =
      update (current.leaves root) (first + count) (some (userEntry page))) :
    Grown root first (count + 1) before after := by
  have range := grown.wellFormed.inRange page (isFree ▸ List.mem_cons_self)
  have spared := (spared_take grown.wellFormed isFree).trans grows.spared
  have sameEnd : after.kernelEnd = current.kernelEnd := grows.kernelEnd
  have other : ∀ n, n ≠ first + count → after.leaves root n = current.leaves root n :=
    fun n different => by rw [isMap, update_of_ne different]
  have here : after.leaves root (first + count) = some (userEntry page) := by
    rw [isMap, update_self]
  rcases grows.spared page (apart_take grown.wellFormed isFree) with ⟨isApart, sameWords⟩
  have fresh : page ∉ current.frames root first count := fun member =>
    grown.own.taken page member (isFree ▸ List.mem_cons_self)
  rcases grown.own_spared sameEnd spared (frames_eq fun n _ below => other n (by omega)) with
    ⟨own, cleared⟩
  have frames : after.frames root first (count + 1) = after.frames root first count ++ [page] := by
    simp only [Memory.frames, List.range'_1_concat, List.filterMap_append, List.filterMap_cons,
      List.filterMap_nil, here, Option.map_some, pageOf_userEntry range.2]
  rw [← frames_eq fun n _ below => other n (by omega)] at fresh
  constructor
  · exact grows.wellFormed
  · exact sameEnd.trans grown.kernelEnd
  · intro n outside
    rw [other n (by omega)]
    exact grown.leaves n (by omega)
  · intro n above below
    by_cases last : n = first + count
    · exact ⟨page, last ▸ here⟩
    · rw [other n last]
      exact grown.entries n above (by omega)
  · rw [frames]
    refine ⟨List.nodup_append.mpr ⟨own.nodup, List.nodup_singleton page, ?_⟩, ?_, ?_, ?_⟩
    · rintro old isOld new isNew rfl
      exact fresh (List.mem_singleton.mp isNew ▸ isOld)
    all_goals
      intro new member
      rcases List.mem_append.mp member with old | last
    · exact own.taken new old
    · exact List.mem_singleton.mp last ▸ isApart.1
    · exact own.outside new old
    · exact List.mem_singleton.mp last ▸ isApart.2
    · exact own.inRange new old
    · exact List.mem_singleton.mp last ▸ sameEnd ▸ range
  · rw [frames]
    intro new member
    rcases List.mem_append.mp member with old | last
    · exact cleared new old
    · rw [List.mem_singleton.mp last, sameWords, Memory.take, fill_words_self]
      exact ⟨rfl, fun wasApart => (grown.spared page wasApart).1.1 (isFree ▸ List.mem_cons_self)⟩
  · exact grown.spared.trans spared

theorem giveUp (isMap : after.leaves root = current.leaves root) :
    Grown root first count before (after.release page) := by
  have range := grown.wellFormed.inRange page (isFree ▸ List.mem_cons_self)
  have sameEnd : (after.release page).kernelEnd = current.kernelEnd := grows.kernelEnd
  rcases grows.spared page (apart_take grown.wellFormed isFree) with ⟨isApart, _⟩
  have spared : Spared root current (after.release page) := by
    intro other otherApart
    rcases ((spared_take grown.wellFormed isFree).trans grows.spared) other otherApart with
      ⟨stillApart, sameWords⟩
    have different : other ≠ page := fun same =>
      otherApart.1 (same ▸ isFree ▸ List.mem_cons_self)
    refine ⟨⟨?_, fun path short => ?_⟩, (after.fill_words_of_ne _ different).trans sameWords⟩
    · exact fun isReleased => (List.mem_cons.mp isReleased).elim different stillApart.1
    · rw [table_release isApart.2 short]
      exact stillApart.2 path short
  have leaves : (after.release page).leaves root = current.leaves root :=
    (leaves_release isApart.2).trans isMap
  rcases grown.own_spared sameEnd spared (frames_eq fun n _ _ => congrFun leaves n) with
    ⟨own, cleared⟩
  refine ⟨grows.wellFormed.release isApart.2 isApart.1 (grows.kernelEnd ▸ range),
    sameEnd.trans grown.kernelEnd, ?_, ?_, own, cleared, grown.spared.trans spared⟩ <;>
    rw [leaves]
  · exact grown.leaves
  · exact grown.entries

end

/-- All pages of the range are unmapped again. -/
theorem undo (inside : first + count ≤ MAXVA / PGSIZE)
    (unmapped : ∀ n, first ≤ n → n < first + count → before.leaves root n = none) :
    Wp (uvmdealloc root ((first + count) * PGSIZE) (first * PGSIZE)) current
      fun _ => Grown root first 0 before := by
  rcases Nat.eq_zero_or_pos count with rfl | positive
  · rw [uvmdealloc, Nat.add_zero, if_pos (Nat.le_refl _)]
    exact (wp_pure (first * PGSIZE)).mpr grown
  have pages : pagesOf ((first + count) * PGSIZE) - pagesOf (first * PGSIZE) = count := by
    rw [pagesOf_mul, pagesOf_mul, Nat.add_sub_cancel_left]
  apply (uvmdealloc_wp grown.wellFormed _ _ _ _).imp
  · rintro _ after ⟨-, erased⟩
    rw [pages, pagesOf_mul] at erased
    refine ⟨erased.wellFormed, erased.kernelEnd.trans grown.kernelEnd, fun n _ => ?_,
      fun n above below => by omega, ⟨List.nodup_nil, nofun, nofun, nofun⟩, nofun, ?_⟩
    · rw [erased.leaves, erase]
      split
      · rename_i part
        exact (unmapped n part.1 part.2).symm
      · exact grown.leaves n (by omega)
    · intro page isApart
      rcases grown.spared page isApart with ⟨stillApart, sameWords⟩
      rcases erased.spared stillApart fun member => (grown.cleared page member).2 isApart with
        ⟨apartAfter, same⟩
      exact ⟨apartAfter, same.trans sameWords⟩
  · simp only [PGSIZE]
    omega
  · simp only [MAXVA, PGSIZE] at *
    omega
  · intro n above below
    rw [pagesOf_mul] at above below
    rcases grown.entries n above below with ⟨page, isLeaf⟩
    exact ⟨_, isLeaf, flags_userEntry page⟩
  · rw [pages, pagesOf_mul]
    exact grown.own

end Grown

theorem mapPage_wp {current : Memory} {rest : List Nat}
    (grown : Grown root first count before current) (isFree : current.free = page :: rest)
    (inside : first + count < MAXVA / PGSIZE)
    (unmapped : before.leaves root (first + count) = none) :
    Wp (mappages root ((first + count) * PGSIZE) PGSIZE (address page) userPerm)
      (current.take rest page)
      fun result after => result = 0 ∧ Grown root first (count + 1) before after ∨
        result = -1 ∧ after.free = [] ∧ Wp (kfree (address page)) after
          fun _ => Grown root first count before := by
  have range := grown.wellFormed.inRange page (isFree ▸ List.mem_cons_self)
  have one : span ((first + count) * PGSIZE) PGSIZE = 1 := by
    simp only [span, PGSIZE]
    omega
  have number : (first + count) * PGSIZE / PGSIZE = first + count :=
    Nat.mul_div_cancel _ (by decide)
  have vacant := (grown.leaves (first + count) (by omega)).trans unmapped
  apply (mappages_wp (grown.wellFormed.take isFree) _ _ (by decide) _ _).imp
  · rintro result after ⟨grows, ⟨rfl, isMap⟩ | ⟨rfl, isEmpty, part, isPart, isMap⟩⟩ <;>
      rw [leaves_take grown.wellFormed isFree, number] at isMap
    · refine Or.inl ⟨rfl, grown.extend isFree grows ?_⟩
      rw [isMap, one, assign_succ, assign_zero]
      rfl
    · refine Or.inr ⟨rfl, isEmpty, ?_⟩
      rw [one, Nat.lt_one_iff] at isPart
      rw [isPart, assign_zero] at isMap
      have isPage : pageOf (address page) = page := by
        rw [pageOf, toNat_address range.2, Nat.mul_div_cancel _ (by decide)]
      apply (kfree_wp _ _ _).imp
      · rintro _ last rfl
        rw [isPage]
        exact grown.giveUp isFree grows isMap
      · rw [isPage, toNat_address range.2]
      · rw [isPage, grows.kernelEnd]
        exact range.1
      · rw [isPage]
        exact range.2
  · simp only [MAXVA, PGSIZE] at *
    omega
  · intro i isPart
    rw [one, Nat.lt_one_iff] at isPart
    rw [leaves_take grown.wellFormed isFree, number, isPart]
    exact vacant

section

variable {current : Memory} (bound : first + count = pagesOf newsz) (inside : newsz ≤ MAXVA)
  (unmapped : ∀ n, first ≤ n → n < first + count → before.leaves root n = none)

include bound inside unmapped

theorem uvmallocFrom_wp {mapped fuel : Nat} (grown : Grown root first mapped before current)
    (part : mapped ≤ count) (enough : count < mapped + fuel) :
    Wp (uvmallocFrom root (first * PGSIZE) newsz fuel ((first + mapped) * PGSIZE)) current
      fun result after => result = newsz ∧ Grown root first count before after ∨
        result = 0 ∧ Grown root first 0 before after := by
  have below : first + count ≤ MAXVA / PGSIZE := by
    simp only [bound, pagesOf, MAXVA, PGSIZE] at *
    omega
  induction fuel generalizing mapped current with
  | zero => omega
  | succ fuel ih =>
    rw [uvmallocFrom]
    by_cases more : (first + mapped) * PGSIZE < newsz
    · rw [if_pos more]
      have next : mapped < count := by
        have := lt_pagesOf_iff.mpr more
        omega
      have undo := fun {current : Memory} (grown : Grown root first mapped before current) =>
        grown.undo (by omega) fun n above isPart => unmapped n above (by omega)
      rw [wp_bind]
      apply (kalloc_wp current).imp
      rintro _ taken (⟨rfl, -, rfl⟩ | ⟨page, rest, rfl, isFree, rfl⟩)
      · simp only [wp_bind, wp_discard, wp_pure]
        exact (undo grown).imp fun _ _ isUndone => Or.inr ⟨trivial, isUndone⟩
      simp only [memset, wp_bind, wp_modify]
      change Wp _ (current.take rest page) _ _
      apply (mapPage_wp grown isFree (by omega) (unmapped _ (by omega) (by omega))).imp
      rintro _ after (⟨rfl, longer⟩ | ⟨rfl, -, given⟩)
      · rw [if_neg (by simp), ← Nat.succ_mul, Nat.succ_eq_add_one, Nat.add_assoc]
        exact ih longer next (by omega)
      · rw [if_pos (by decide)]
        simp only [wp_bind, wp_discard, wp_pure]
        apply given.imp
        exact fun _ _ given => (undo given).imp fun _ _ isUndone => Or.inr ⟨trivial, isUndone⟩
    · rw [if_neg more]
      have last : mapped = count := by
        have := mt lt_pagesOf_iff.mp more
        omega
      exact (wp_pure newsz).mpr (Or.inl ⟨rfl, last ▸ grown⟩)

theorem uvmalloc_wp (wellFormed : WellFormed before root) (grows : oldsz ≤ newsz)
    (isFirst : first = pagesOf oldsz) :
    Wp (uvmalloc root oldsz newsz) before
      fun result after => result = newsz ∧ Grown root first count before after ∨
        result = 0 ∧ Grown root first 0 before after := by
  have enough : count < 0 + rounds := by
    simp only [rounds, pagesOf, MAXVA, PGSIZE] at *
    omega
  rw [uvmalloc, if_neg (by omega), PGROUNDUP_eq (Nat.le_trans grows inside), ← isFirst]
  have loop := uvmallocFrom_wp bound inside unmapped (Grown.refl wellFormed) (Nat.zero_le count)
    enough
  rwa [Nat.add_zero] at loop

end

/-! ## The memory of a process -/

/-- The address space of a process: the pages below its size are mapped to pages
of their own, and only the trampoline and the trapframe are mapped above. -/
structure AddressSpace (memory : Memory) (p : Proc) : Prop where
  wellFormed : WellFormed memory p.pagetable
  kernel : KERNBASE ≤ memory.kernelEnd
  isMapped : ∀ n, n < pagesOf p.sz →
    ∃ pte, memory.leaves p.pagetable n = some pte ∧ PTE_FLAGS pte ≠ PTE_V
  outside : ∀ n, pagesOf p.sz ≤ n → n ≠ TRAMPOLINE / PGSIZE → n ≠ TRAPFRAME / PGSIZE →
    memory.leaves p.pagetable n = none
  own : Freeable memory p.pagetable (memory.frames p.pagetable 0 (pagesOf p.sz))

/-- The byte at a virtual address. -/
def Memory.byte (memory : Memory) (root va : Nat) : Option (BitVec 8) :=
  (memory.leaves root (va / PGSIZE)).map fun pte =>
    (memory.words (pageOf (PTE2PA pte)) (Fin.ofNat 512 (va % PGSIZE / 8))).extractLsb'
      (8 * (va % 8)) 8

variable {pte : Word}

theorem Memory.byte_congr (isLeaf : memory.leaves root (va / PGSIZE) = some pte)
    (sameLeaf : after.leaves root (va / PGSIZE) = memory.leaves root (va / PGSIZE))
    (sameWords : after.words (pageOf (PTE2PA pte)) = memory.words (pageOf (PTE2PA pte))) :
    after.byte root va = memory.byte root va := by
  rw [Memory.byte, Memory.byte, sameLeaf, isLeaf, Option.map_some, Option.map_some, sameWords]

theorem Memory.mem_frames (isLeaf : memory.leaves root n = some pte) (above : first ≤ n)
    (below : n < first + count) : pageOf (PTE2PA pte) ∈ memory.frames root first count :=
  List.mem_filterMap.mpr ⟨n, List.mem_range'_1.mpr ⟨above, below⟩, by rw [isLeaf, Option.map_some]⟩

theorem Memory.length_frames (isMapped : ∀ n, first ≤ n → n < first + count →
      ∃ pte, memory.leaves root n = some pte) : (memory.frames root first count).length = count := by
  induction count generalizing first with
  | zero => rfl
  | succ count ih =>
    rcases isMapped first (by omega) (by omega) with ⟨pte, isLeaf⟩
    rw [frames_succ isLeaf, List.length_cons, ih]
    exact fun n above below => isMapped n (by omega) (by omega)

theorem Memory.frames_append (memory : Memory) (root first count more : Nat) :
    memory.frames root first (count + more) =
      memory.frames root first count ++ memory.frames root (first + count) more := by
  rw [Memory.frames, ← List.range'_append_1, List.filterMap_append]
  rfl

theorem length_le_of_inRange (nodup : pages.Nodup) {low high : Nat}
    (above : ∀ page ∈ pages, low ≤ page * PGSIZE) (below : ∀ page ∈ pages, page * PGSIZE < high) :
    pages.length ≤ pagesOf high - pagesOf low := by
  have inside : pages ⊆ List.range' (pagesOf low) (pagesOf high - pagesOf low) := by
    intro page member
    have isAbove := above page member
    have isBelow := lt_pagesOf_iff.mpr (below page member)
    rw [List.mem_range'_1]
    simp only [pagesOf, PGSIZE] at *
    omega
  have few := (List.subperm_of_subset nodup inside).length_le
  rwa [List.length_range'] at few

namespace AddressSpace

variable {memory : Memory} {p : Proc} (space : AddressSpace memory p)
include space

/-- The pages in use are different pages of the allocator, of which there are
not many. -/
theorem sz_le : p.sz ≤ PHYSTOP - KERNBASE := by
  have length : (memory.frames p.pagetable 0 (pagesOf p.sz)).length = pagesOf p.sz :=
    length_frames fun n _ below =>
      (space.isMapped n (by omega)).imp fun _ isLeaf => isLeaf.1
  have above : ∀ page ∈ memory.frames p.pagetable 0 (pagesOf p.sz), KERNBASE ≤ page * PGSIZE :=
    fun page member => Nat.le_trans space.kernel (space.own.inRange page member).1
  have few := length_le_of_inRange space.own.nodup above fun page member =>
    (space.own.inRange page member).2
  have size : pagesOf PHYSTOP - pagesOf KERNBASE = 32768 := by decide
  have total : PHYSTOP - KERNBASE = 32768 * PGSIZE := by decide
  rw [length, size, pagesOf, PGSIZE] at few
  rw [total, PGSIZE]
  omega

theorem byte_grown (grown : Grown p.pagetable (pagesOf p.sz) count memory after)
    (inside : va < pagesOf p.sz * PGSIZE) :
    after.byte p.pagetable va = memory.byte p.pagetable va := by
  have below : va / PGSIZE < pagesOf p.sz := (Nat.div_lt_iff_lt_mul (by decide)).mpr inside
  rcases space.isMapped _ below with ⟨pte, isLeaf, -⟩
  have member := mem_frames isLeaf (Nat.zero_le _) (Nat.lt_of_lt_of_eq below (Nat.zero_add _).symm)
  exact byte_congr isLeaf (grown.leaves _ (Or.inl below))
    (grown.spared _ (space.own.apart member)).2

theorem byte_unmapped (shrinks : newsz ≤ p.sz)
    (unmapped : Unmapped p.pagetable (pagesOf newsz) (pagesOf p.sz - pagesOf newsz) true memory after)
    (inside : va < newsz) : after.byte p.pagetable va = memory.byte p.pagetable va := by
  have le := pagesOf_mono shrinks
  have below : va / PGSIZE < pagesOf newsz := by
    simp only [pagesOf, PGSIZE]
    omega
  rcases space.isMapped (va / PGSIZE) (by omega) with ⟨pte, isLeaf, -⟩
  have whole := memory.frames_append p.pagetable 0 (pagesOf newsz) (pagesOf p.sz - pagesOf newsz)
  rw [Nat.zero_add, Nat.add_sub_cancel' le] at whole
  have member := mem_frames isLeaf (Nat.zero_le _) (Nat.lt_of_lt_of_eq below (Nat.zero_add _).symm)
  have kept : pageOf (PTE2PA pte) ∉
      memory.frames p.pagetable (pagesOf newsz) (pagesOf p.sz - pagesOf newsz) := fun isFreed =>
    (List.nodup_append.mp (whole ▸ space.own.nodup)).2.2 _ member _ isFreed rfl
  have isApart := space.own.apart (whole ▸ List.mem_append_left _ member)
  refine byte_congr isLeaf ?_ (unmapped.spared isApart kept).2
  rw [unmapped.leaves, erase, if_neg (by omega)]

end AddressSpace

theorem Grown.byte_zero (grown : Grown root first count before after) (above : first * PGSIZE ≤ va)
    (below : va < (first + count) * PGSIZE) : after.byte root va = some 0 := by
  have isAbove : first ≤ va / PGSIZE := (Nat.le_div_iff_mul_le (by decide)).mpr above
  have isBelow : va / PGSIZE < first + count := (Nat.div_lt_iff_lt_mul (by decide)).mpr below
  rcases grown.entries _ isAbove isBelow with ⟨page, isLeaf⟩
  rw [Memory.byte, isLeaf, Option.map_some, (grown.cleared _ (mem_frames isLeaf isAbove isBelow)).1]
  simp

/-! ## `sbrk` is exact unless the size would be negative -/

/-- `growproc(n)` succeeds with the size that is asked for, new pages cleared and
the rest unchanged, or fails and changes nothing. -/
def Exact (memory : Memory) (p : Proc) (n : BitVec 32) : Prop :=
  Wp (growproc p n) memory
    fun (result, q) after => q.pagetable = p.pagetable ∧
      (result = 0 ∧ (q.sz : Int) = p.sz + n.toInt ∧
          (∀ va, PGROUNDUP p.sz ≤ va → va < PGROUNDUP q.sz → after.byte p.pagetable va = some 0) ∧
          (∀ va, va < min p.sz q.sz → after.byte p.pagetable va = memory.byte p.pagetable va) ∨
        result = -1 ∧ q = p ∧ after.pages p.pagetable = memory.pages p.pagetable ∧
          ∀ va, va < PGROUNDUP p.sz → after.byte p.pagetable va = memory.byte p.pagetable va)

theorem Sample.addressSpace : AddressSpace Sample.memory ⟨0, 1⟩ where
  wellFormed := wellFormed
  kernel := by decide
  isMapped n below := absurd below (Nat.not_lt_zero n)
  outside n _ _ _ := by
    simp only [Memory.leaves, Memory.leaf, Memory.table, path, follow, Sample.memory,
      child_of_invalid valid_zero, Option.bind_none, ite_self]
  own := ⟨List.nodup_nil, nofun, nofun, nofun⟩

theorem exact_of_notNegative {p : Proc} (space : AddressSpace memory p) (n : BitVec 32)
    (notNegative : 0 ≤ (p.sz : Int) + n.toInt) : Exact memory p n := by
  have small : p.sz ≤ 2 ^ 27 := space.sz_le
  have lt := n.toInt_lt
  have ge := n.le_toInt
  have old : (BitVec.ofNat 32 p.sz).toNat = p.sz := by
    rw [BitVec.toNat_ofNat]
    omega
  have sum : (((BitVec.ofNat 32 p.sz + n).toNat : Nat) : Int) = p.sz + n.toInt := by
    rw [BitVec.toNat_add, old]
    have := n.isLt
    rw [BitVec.toInt_eq_toNat_cond] at *
    split at * <;> omega
  rw [Exact, growproc, old]
  generalize (BitVec.ofNat 32 p.sz + n).toNat = newsz at sum
  have oldInside : p.sz ≤ MAXVA := Nat.le_trans small (by decide)
  have inside : newsz ≤ MAXVA := by
    simp only [MAXVA]
    omega
  split
  · have le := pagesOf_mono (by omega : p.sz ≤ newsz)
    rw [wp_bind]
    apply (uvmalloc_wp (Nat.add_sub_cancel' le) inside _ space.wellFormed (by omega) rfl).imp
    · rintro _ after (⟨rfl, grown⟩ | ⟨rfl, grown⟩)
      · rw [Nat.mod_eq_of_lt (by omega), if_neg (by omega), wp_pure]
        refine ⟨rfl, Or.inl ⟨rfl, sum, fun va above below => ?_, fun va below => ?_⟩⟩
        · rw [PGROUNDUP_eq oldInside] at above
          rw [PGROUNDUP_eq inside] at below
          exact grown.byte_zero above (by rwa [Nat.add_sub_cancel' le])
        · refine space.byte_grown grown ?_
          simp only [pagesOf, PGSIZE]
          omega
      · rw [Nat.zero_mod, if_pos rfl, wp_pure]
        refine ⟨rfl, Or.inr ⟨rfl, rfl, ?_, fun va below => ?_⟩⟩
        · funext n
          rw [Memory.pages, Memory.pages, grown.leaves n (by omega)]
        · rw [PGROUNDUP_eq oldInside] at below
          exact space.byte_grown grown below
    · intro n above below
      refine space.outside n above ?_ ?_ <;>
        simp only [pagesOf, TRAPFRAME, TRAMPOLINE, MAXVA, PGSIZE] at * <;> omega
  · rename_i notGrowing
    split
    · have le := pagesOf_mono (by omega : newsz ≤ p.sz)
      have whole := memory.frames_append p.pagetable 0 (pagesOf newsz) (pagesOf p.sz - pagesOf newsz)
      rw [Nat.zero_add, Nat.add_sub_cancel' le] at whole
      rw [wp_bind]
      apply (uvmdealloc_wp space.wellFormed (by omega) _ _ (whole ▸ space.own).of_append).imp
      · rintro _ after ⟨rfl, unmapped⟩
        rw [Nat.mod_eq_of_lt (by omega), wp_pure]
        refine ⟨rfl, Or.inl ⟨rfl, sum, fun va above below => ?_, fun va below => ?_⟩⟩
        · rw [PGROUNDUP_eq oldInside] at above
          rw [PGROUNDUP_eq inside] at below
          exact absurd (Nat.lt_of_le_of_lt above below)
            (Nat.not_lt.mpr (Nat.mul_le_mul_right PGSIZE le))
        · exact space.byte_unmapped (by omega) unmapped (Nat.lt_min.mp below).2
      · exact oldInside
      · exact fun n _ below => space.isMapped n below
    · have zero : n.toInt = 0 := by omega
      rw [wp_pure]
      refine ⟨rfl, Or.inl ⟨rfl, by simp [zero], fun va above below => ?_, fun _ _ => rfl⟩⟩
      exact absurd below (Nat.not_lt.mpr above)

/-- A size below zero becomes a large `uint`, which `uvmdealloc` takes for
nothing to do. -/
theorem growproc_belowZero {p : Proc} (space : AddressSpace memory p)
    {n : BitVec 32} (isNegative : (p.sz : Int) + n.toInt < 0) :
    (growproc p n).run memory = .ok (0, p) memory := by
  have small : p.sz ≤ 2 ^ 27 := space.sz_le
  have ge := n.le_toInt
  have old : (BitVec.ofNat 32 p.sz).toNat = p.sz := by
    rw [BitVec.toNat_ofNat]
    omega
  have large : p.sz ≤ (BitVec.ofNat 32 p.sz + n).toNat := by
    rw [BitVec.toNat_add, old]
    have := n.isLt
    rw [BitVec.toInt_eq_toNat_cond] at *
    split at * <;> omega
  rw [growproc, if_neg (by omega), if_pos (by omega), uvmdealloc, old, if_pos large]
  change EStateM.Result.ok (0, ({ p with sz := p.sz % 2 ^ 32 } : Proc)) memory = _
  rw [Nat.mod_eq_of_lt (by omega)]

theorem not_exact_of_belowZero {p : Proc} (space : AddressSpace memory p) {n : BitVec 32}
    (isNegative : (p.sz : Int) + n.toInt < 0) : ¬ Exact memory p n := by
  intro exact
  rw [Exact, wp_of_run (growproc_belowZero space isNegative)] at exact
  rcases exact with ⟨-, ⟨-, isSize, -⟩ | ⟨impossible, -⟩⟩
  · rw [← isSize] at isNegative
    exact absurd isNegative (Int.not_lt.mpr (Int.natCast_nonneg p.sz))
  · cases impossible

/-- `growproc` is exact if and only if the new size is not negative. -/
theorem growproc_exact {p : Proc} (space : AddressSpace memory p) (n : BitVec 32) :
    Exact memory p n ↔ 0 ≤ (p.sz : Int) + n.toInt := by
  constructor
  · intro exact
    exact Int.not_lt.mp fun isNegative => not_exact_of_belowZero space isNegative exact
  · exact exact_of_notNegative space n

/-- One page is asked for, and the free pages are just enough. -/
theorem growproc_exact_firstPage :
    ∃ after, (growproc ⟨0, 1⟩ 4096).run Sample.memory = .ok (0, ⟨4096, 1⟩) after ∧
      ∀ va, va < 4096 → after.byte 1 va = some 0 := by
  have succeeds : Wp (growproc ⟨0, 1⟩ 4096) Sample.memory fun result _ => result.1 = 0 := by
    decide +kernel
  have exact := (growproc_exact Sample.addressSpace 4096).mpr (by decide)
  rcases wp_false_iff.mp succeeds with ⟨⟨result, sz, pagetable⟩, after, ran, rfl⟩
  rw [Exact, wp_of_run ran] at exact
  rcases exact with ⟨rfl, ⟨-, isSize, cleared, -⟩ | ⟨impossible, -⟩⟩
  · have size : (sz : Int) = 4096 := by simpa using isSize
    obtain rfl : sz = 4096 := by omega
    exact ⟨after, ran, fun va inside => cleared va (Nat.zero_le va) inside⟩
  · cases impossible

/-- `sbrk(-1)` of a process without memory is reported as a success. -/
theorem growproc_negative_succeeds :
    AddressSpace Sample.memory ⟨0, 1⟩ ∧
      (growproc ⟨0, 1⟩ (-1)).run Sample.memory = .ok (0, ⟨0, 1⟩) Sample.memory ∧
      ¬ Exact Sample.memory ⟨0, 1⟩ (-1) := by
  have isNegative : ((0 : Nat) : Int) + (-1 : BitVec 32).toInt < 0 := by
    decide
  exact ⟨Sample.addressSpace, growproc_belowZero Sample.addressSpace isNegative,
    not_exact_of_belowZero Sample.addressSpace isNegative⟩

end Vm
end Xv6
