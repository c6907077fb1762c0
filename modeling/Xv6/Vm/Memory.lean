import Mathlib.Logic.Function.Basic
import Xv6.Foundation.Program
import Xv6.Panic

namespace Xv6
namespace Vm

open Foundation Function

/-!
# Physical pages and page tables

The allocator of `kernel/kalloc.c` and the page tables of `kernel/vm.c`.  A page
is known by its number, and has 512 words; the free list is a list of numbers.
A pointer to a page table entry is the number of a page and an index.
-/

def PGSIZE : Nat := 4096

/-- One beyond the highest possible virtual address. -/
def MAXVA : Nat := 2 ^ (9 + 9 + 9 + 12 - 1)

def KERNBASE : Nat := 0x80000000

def PHYSTOP : Nat := KERNBASE + 128 * 1024 * 1024

def PGROUNDDOWN (a : Nat) : Nat :=
  a / PGSIZE * PGSIZE

abbrev Word := BitVec 64

/-- The 512 words of a page. -/
abbrev Index := Fin 512

def PTE_V : Word := 1
def PTE_R : Word := 2
def PTE_W : Word := 4
def PTE_X : Word := 8
def PTE_U : Word := 16

/-- Shift a physical address to the right place for an entry. -/
def PA2PTE (pa : Word) : Word :=
  (pa >>> 12) <<< 10

def PTE2PA (pte : Word) : Word :=
  (pte >>> 10) <<< 12

def PTE_FLAGS (pte : Word) : Word :=
  pte &&& 0x3FF

/-- Is `PTE_V` set? -/
def valid (pte : Word) : Bool :=
  pte &&& PTE_V != 0

/-- A page table has entries. -/
instance neZeroEntries : NeZero 512 := ⟨by decide⟩

/-- The index into a page table of the level. -/
def PX (level va : Nat) : Index :=
  Fin.ofNat 512 (va / 2 ^ (12 + 9 * level))

/-- The address of a page. -/
def address (page : Nat) : Word :=
  BitVec.ofNat 64 (page * PGSIZE)

/-- The page at an address. -/
def pageOf (pa : Word) : Nat :=
  pa.toNat / PGSIZE

/-- Physical memory.  `kernelEnd` is the symbol `end`. -/
structure Memory where
  words : Nat → Index → Word
  free : List Nat
  kernelEnd : Nat

abbrev Kernel := EStateM Panic Memory

namespace Memory

/-- All words of a page are assigned. -/
def fill (memory : Memory) (page : Nat) (value : Word) : Memory :=
  { memory with words := update memory.words page fun _ => value }

/-- One entry of a page table is assigned. -/
def store (memory : Memory) (page : Nat) (index : Index) (value : Word) : Memory :=
  { memory with
    words := update memory.words page (update (memory.words page) index value) }

variable (memory : Memory) {page other : Nat} {index : Index} (value : Word)

@[simp] theorem fill_words_self : (memory.fill page value).words page = fun _ => value :=
  update_self ..

theorem fill_words_of_ne (different : other ≠ page) :
    (memory.fill page value).words other = memory.words other :=
  update_of_ne different ..

@[simp] theorem store_words_self :
    (memory.store page index value).words page = update (memory.words page) index value :=
  update_self ..

theorem store_words_of_ne (different : other ≠ page) :
    (memory.store page index value).words other = memory.words other :=
  update_of_ne different ..

end Memory

/-- `memset(pa, c, PGSIZE)`, where `value` has `c` in all bytes. -/
def memset (page : Nat) (value : Word) : Kernel PUnit :=
  modify fun memory => memory.fill page value

/-- `*pte = value`. -/
def setEntry (page : Nat) (index : Index) (value : Word) : Kernel PUnit :=
  modify fun memory => memory.store page index value

/-! ## The allocator -/

def kfree (pa : Word) : Kernel PUnit := do
  if pa.toNat % PGSIZE ≠ 0 ∨ pa.toNat < (← get).kernelEnd ∨ PHYSTOP ≤ pa.toNat then
    throw .kfree
  else
    memset (pageOf pa) 0x0101010101010101
    modify fun memory => { memory with free := pageOf pa :: memory.free }

def kalloc : Kernel (Option Nat) := do
  match (← get).free with
  | [] => return none
  | page :: rest =>
    modify fun memory => { memory with free := rest }
    memset page 0x0505050505050505
    return some page

/-! ## Page tables -/

/-- The loop of `walk`, for `level` more levels.  The result is a page table of
level 0. -/
def walkFrom (va : Nat) (alloc : Bool) : (level pagetable : Nat) → Kernel (Option Nat)
  | 0, pagetable => return some pagetable
  | level + 1, pagetable => do
      let pte := (← get).words pagetable (PX (level + 1) va)
      if valid pte then walkFrom va alloc level (pageOf (PTE2PA pte))
      else if alloc = false then return none
      else
        match ← kalloc with
        | none => return none
        | some page =>
          memset page 0
          setEntry pagetable (PX (level + 1) va) (PA2PTE (address page) ||| PTE_V)
          walkFrom va alloc level page

/-- `walk`. -/
def walk (pagetable va : Nat) (alloc : Bool) : Kernel (Option (Nat × Index)) := do
  if MAXVA ≤ va then throw .walk
  else
    match ← walkFrom va alloc 2 pagetable with
    | none => return none
    | some page => return some (page, PX 0 va)

/-- Enough rounds for any loop over pages: before they are used up, `walk` stops
the kernel. -/
def rounds : Nat :=
  MAXVA / PGSIZE + 1

/-- The loop of `mappages`. -/
def mappagesFrom (pagetable last : Nat) (perm : Word) : (fuel a : Nat) → (pa : Word) → Kernel Int
  | 0, _, _ => throw .walk
  | fuel + 1, a, pa => do
      match ← walk pagetable a true with
      | none => return -1
      | some (page, index) =>
        if valid ((← get).words page index) then throw .remap
        else
          setEntry page index (PA2PTE pa ||| perm ||| PTE_V)
          if a = last then return 0
          else mappagesFrom pagetable last perm fuel (a + PGSIZE) (pa + BitVec.ofNat 64 PGSIZE)

/-- `mappages`. -/
def mappages (pagetable va size : Nat) (pa perm : Word) : Kernel Int :=
  mappagesFrom pagetable (PGROUNDDOWN ((va + size + (2 ^ 64 - 1)) % 2 ^ 64)) perm rounds
    (PGROUNDDOWN va) pa

/-- The loop of `uvmunmap`. -/
def uvmunmapFrom (pagetable bound : Nat) (doFree : Bool) : (fuel a : Nat) → Kernel PUnit
  | 0, _ => throw .walk
  | fuel + 1, a => do
      if a < bound then
        match ← walk pagetable a false with
        | none => throw .uvmunmapWalk
        | some (page, index) =>
          let pte := (← get).words page index
          if valid pte = false then throw .uvmunmapNotMapped
          else if PTE_FLAGS pte = PTE_V then throw .uvmunmapNotALeaf
          else
            if doFree then kfree (PTE2PA pte)
            setEntry page index 0
            uvmunmapFrom pagetable bound doFree fuel (a + PGSIZE)

/-- `uvmunmap`. -/
def uvmunmap (pagetable va npages : Nat) (doFree : Bool) : Kernel PUnit := do
  if va % PGSIZE ≠ 0 then throw .uvmunmapNotAligned
  else uvmunmapFrom pagetable ((va + npages * PGSIZE) % 2 ^ 64) doFree rounds va

end Vm
end Xv6
