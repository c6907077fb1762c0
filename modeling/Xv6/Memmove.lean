import Mathlib.Data.BitVec

namespace Xv6
namespace Memmove

open Function

/-!
# `memmove`

The kernel copies downwards only if the destination starts inside the source;
the user library copies downwards unless the source is above the destination.
A direction is right if no byte of the source is overwritten before it is read.
-/

abbrev Address := BitVec 64

/-- `while(n-- > 0) *d++ = *s++;` -/
def copyUp : (n : Nat) → (d s : Address) → (Address → UInt8) → Address → UInt8
  | 0, _, _, memory => memory
  | n + 1, d, s, memory => copyUp n (d + 1) (s + 1) (update memory d (memory s))

/-- `while(n-- > 0) *--d = *--s;` -/
def copyDown : (n : Nat) → (d s : Address) → (Address → UInt8) → Address → UInt8
  | 0, _, _, memory => memory
  | n + 1, d, s, memory => copyDown n (d - 1) (s - 1) (update memory (d - 1) (memory (s - 1)))

section

variable (dst : Address) (src : Address)

/-- `memmove` of `kernel/string.c`. -/
def kernelMemmove (n : BitVec 32) (memory : Address → UInt8) : Address → UInt8 :=
  if src < dst ∧ src + n.setWidth 64 > dst then
    copyDown n.toNat (dst + n.setWidth 64) (src + n.setWidth 64) memory
  else copyUp n.toNat dst src memory

/-- `memmove` of `user/ulib.c`, whose `n` is signed. -/
def userMemmove (n : BitVec 32) (memory : Address → UInt8) : Address → UInt8 :=
  if src > dst then copyUp n.toInt.toNat dst src memory
  else copyDown n.toInt.toNat (dst + n.signExtend 64) (src + n.signExtend 64) memory

/-- The memory in which `n` bytes have the values that the source had. -/
def moved (n : Nat) (memory : Address → UInt8) : Address → UInt8 := fun a =>
  if (a - dst).toNat < n then memory (src + (a - dst)) else memory a

end

variable {d s : Address}

theorem copyUp_eq_moved (n : Nat) (small : n ≤ 2 ^ 64) (apart : d = s ∨ n ≤ (d - s).toNat)
    (memory : Address → UInt8) : copyUp n d s memory = moved d s n memory := by
  induction n generalizing d s memory with
  | zero => exact funext fun a => (if_neg (Nat.not_lt_zero _)).symm
  | succ n ih =>
    rw [copyUp, ih (by omega) (by bv_omega)]
    funext a
    simp only [moved, update_apply]
    have shifted : s + 1 + (a - (d + 1)) = s + (a - d) := by bv_omega
    rw [shifted]
    by_cases first : a = d
    · subst first
      rw [if_neg (by bv_omega), if_pos rfl, if_pos (by bv_omega)]
      simp
    · by_cases inside : (a - d).toNat < n + 1
      · rw [if_pos (by bv_omega), if_pos inside, if_neg (by bv_omega)]
      · rw [if_neg (by bv_omega), if_neg inside, if_neg first]

theorem copyDown_eq_moved (n : Nat) (small : n ≤ 2 ^ 64) (apart : d = s ∨ n ≤ (s - d).toNat)
    (memory : Address → UInt8) :
    copyDown n (d + BitVec.ofNat 64 n) (s + BitVec.ofNat 64 n) memory = moved d s n memory := by
  induction n generalizing memory with
  | zero => exact funext fun a => (if_neg (Nat.not_lt_zero _)).symm
  | succ n ih =>
    have back (x : Address) : x + BitVec.ofNat 64 (n + 1) - 1 = x + BitVec.ofNat 64 n := by
      bv_omega
    rw [copyDown, back, back, ih (by omega) (by bv_omega)]
    funext a
    simp only [moved, update_apply]
    by_cases last : a = d + BitVec.ofNat 64 n
    · subst last
      have offset : d + BitVec.ofNat 64 n - d = BitVec.ofNat 64 n := by bv_omega
      rw [offset, if_neg (by bv_omega), if_pos rfl, if_pos (by bv_omega)]
    · by_cases inside : (a - d).toNat < n
      · rw [if_pos inside, if_neg (by bv_omega), if_pos (by omega)]
      · rw [if_neg inside, if_neg last, if_neg (by bv_omega)]

/-- The destination has the old bytes of the source; every other byte is as it was. -/
def Moves (dst src : Address) (n : Nat) (before after : Address → UInt8) : Prop :=
  (∀ i < n, after (dst + BitVec.ofNat 64 i) = before (src + BitVec.ofNat 64 i)) ∧
    ∀ a, (∀ i < n, a ≠ dst + BitVec.ofNat 64 i) → after a = before a

theorem moves_moved (dst src : Address) (n : Nat) (small : n ≤ 2 ^ 64)
    (memory : Address → UInt8) : Moves dst src n memory (moved dst src n memory) := by
  refine ⟨fun i inside => ?_, fun a outside => if_neg fun inside => ?_⟩
  · have offset : dst + BitVec.ofNat 64 i - dst = BitVec.ofNat 64 i := by bv_omega
    rw [moved, offset, if_pos (by bv_omega)]
  · exact outside _ inside (by bv_omega)

variable (dst src : Address) (n : BitVec 32) (memory : Address → UInt8)

theorem kernelMemmove_eq_moved (source : src.toNat + n.toNat ≤ 2 ^ 64)
    (target : dst.toNat + n.toNat ≤ 2 ^ 64) :
    kernelMemmove dst src n memory = moved dst src n.toNat memory := by
  have width : n.setWidth 64 = BitVec.ofNat 64 n.toNat := by bv_omega
  rw [kernelMemmove, width]
  split
  · exact copyDown_eq_moved _ (by omega) (by bv_omega) memory
  · exact copyUp_eq_moved _ (by omega) (by bv_omega) memory

section

variable (positive : n.toNat < 2 ^ 31) (source : src.toNat + n.toNat ≤ 2 ^ 64)
  (target : dst.toNat + n.toNat ≤ 2 ^ 64)
include positive source target

theorem userMemmove_eq_moved : userMemmove dst src n memory = moved dst src n.toNat memory := by
  have sign : n.msb = false := by
    rw [BitVec.msb_eq_false_iff_two_mul_lt]
    omega
  have width : n.signExtend 64 = BitVec.ofNat 64 n.toNat := by
    rw [BitVec.signExtend_eq_setWidth_of_msb_false sign]
    bv_omega
  have count : n.toInt.toNat = n.toNat := by
    rw [BitVec.toInt_eq_toNat_of_msb sign]
    rfl
  rw [userMemmove, width, count]
  split
  · exact copyUp_eq_moved _ (by omega) (by bv_omega) memory
  · exact copyDown_eq_moved _ (by omega) (by bv_omega) memory

/-- Both copies are right for every overlap, so they agree. -/
theorem memmove_moves :
    Moves dst src n.toNat memory (kernelMemmove dst src n memory) ∧
      Moves dst src n.toNat memory (userMemmove dst src n memory) ∧
      kernelMemmove dst src n memory = userMemmove dst src n memory := by
  rw [kernelMemmove_eq_moved dst src n memory source target,
    userMemmove_eq_moved dst src n memory positive source target]
  have moves := moves_moved dst src n.toNat (by omega) memory
  exact ⟨moves, moves, rfl⟩

end

/-- Three bytes move up by one, at the end of the address space. -/
theorem memmove_moves_overlap : userMemmove (-3) (-4) 3 (fun a => a.toNat.toUInt8) (-1) = 254 :=
  (memmove_moves (-3) (-4) 3 _ (by decide) (by decide) (by decide)).2.1.1 2 (by decide)

end Memmove
end Xv6
