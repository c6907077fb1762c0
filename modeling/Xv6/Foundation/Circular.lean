import Mathlib.Data.Nat.ModEq
import Mathlib.Logic.Function.Basic

namespace Xv6
namespace Foundation

open Function

/-!
# Circular buffers with counters that run freely

A circular buffer has two unsigned counters, of elements read and of elements
written.  Neither is ever reset: both are used modulo the capacity as an index,
and modulo a power of two as a difference.  This works because the capacity
divides the power of two, also when one counter has wrapped around and the
other has not.

`contents` is the queue that the buffer represents.  The rules say that writing
appends to it and reading removes its head.
-/

universe u

/-- The cells and the two counters. -/
structure Circular (α : Type u) (width : Nat) where
  data : Nat → α
  nread : BitVec width
  nwrite : BitVec width

namespace Circular

variable {α : Type u} {width : Nat}

/-- The number of elements that were written and not yet read. -/
def count (buffer : Circular α width) : Nat :=
  (buffer.nwrite - buffer.nread).toNat

section

variable (capacity : Nat) (buffer : Circular α width)

/-- Those elements, oldest first. -/
def contents : List α :=
  (List.range buffer.count).map fun index =>
    buffer.data ((buffer.nread.toNat + index) % capacity)

/-- Write an element and count it. -/
def push (element : α) : Circular α width :=
  { buffer with
    data := update buffer.data (buffer.nwrite.toNat % capacity) element
    nwrite := buffer.nwrite + 1 }

/-- The element to be read next. -/
def head : α :=
  buffer.data (buffer.nread.toNat % capacity)

end

/-- Count an element as read. -/
def pop (buffer : Circular α width) : Circular α width :=
  { buffer with nread := buffer.nread + 1 }

/-- Forget the element that was written last. -/
def retract (buffer : Circular α width) : Circular α width :=
  { buffer with nwrite := buffer.nwrite - 1 }

theorem length_contents (capacity : Nat) (buffer : Circular α width) :
    (buffer.contents capacity).length = buffer.count := by
  rw [contents, List.length_map, List.length_range]

theorem getElem_contents {capacity : Nat} {buffer : Circular α width} {index : Nat}
    (inside : index < (buffer.contents capacity).length) :
    (buffer.contents capacity)[index] = buffer.data ((buffer.nread.toNat + index) % capacity) := by
  simp only [contents, List.getElem_map, List.getElem_range]

/-- The counter of elements written, from the other counter. -/
theorem toNat_nwrite (buffer : Circular α width) :
    buffer.nwrite.toNat = (buffer.nread.toNat + buffer.count) % 2 ^ width := by
  have sum : buffer.nread + (buffer.nwrite - buffer.nread) = buffer.nwrite := by
    rw [BitVec.add_comm, BitVec.sub_add_cancel]
  rw [count, ← BitVec.toNat_add, sum]

theorem count_eq_zero_iff {buffer : Circular α width} :
    buffer.count = 0 ↔ buffer.nread = buffer.nwrite := by
  constructor
  · intro zero
    have difference : buffer.nwrite - buffer.nread = BitVec.ofNat width 0 := BitVec.eq_of_toNat_eq zero
    rw [← BitVec.sub_add_cancel buffer.nwrite buffer.nread, difference, BitVec.zero_add]
  · intro same
    rw [count, same, BitVec.sub_self]
    rfl

/-- A counter wraps around. -/
theorem toNat_add_one (counter : BitVec width) :
    (counter + 1).toNat = (counter.toNat + 1) % 2 ^ width := by
  have one : (1 : BitVec width).toNat = 1 % 2 ^ width := BitVec.toNat_ofNat 1 width
  rw [BitVec.toNat_add, one, Nat.add_mod_mod]

section

variable {capacity : Nat} {buffer : Circular α width}

/-- The test for a full buffer, which compares counters that have wrapped. -/
theorem count_eq_capacity_iff (small : capacity < 2 ^ width) :
    buffer.count = capacity ↔ buffer.nwrite = buffer.nread + BitVec.ofNat width capacity := by
  have isNat : (BitVec.ofNat width capacity).toNat = capacity := by
    rw [BitVec.toNat_ofNat, Nat.mod_eq_of_lt small]
  constructor
  · intro full
    have difference : buffer.nwrite - buffer.nread = BitVec.ofNat width capacity := by
      apply BitVec.eq_of_toNat_eq
      rw [isNat]
      exact full
    rw [← difference, BitVec.add_comm, BitVec.sub_add_cancel]
  · intro same
    rw [count, same, BitVec.add_comm, BitVec.add_sub_cancel, isNat]

theorem count_push (small : capacity < 2 ^ width) (room : buffer.count < capacity) (element : α) :
    (buffer.push capacity element).count = buffer.count + 1 := by
  have sum : buffer.nwrite + 1 - buffer.nread = (buffer.nwrite - buffer.nread) + 1 := by
    rw [BitVec.sub_eq_add_neg, BitVec.sub_eq_add_neg, BitVec.add_assoc, BitVec.add_comm 1,
      ← BitVec.add_assoc]
  have fits : buffer.count + 1 < 2 ^ width := by omega
  calc (buffer.push capacity element).count
      = ((buffer.nwrite - buffer.nread) + 1).toNat := by rw [← sum]; rfl
    _ = (buffer.count + 1) % 2 ^ width := toNat_add_one _
    _ = buffer.count + 1 := Nat.mod_eq_of_lt fits

theorem count_pop (some : buffer.count ≠ 0) : buffer.pop.count + 1 = buffer.count := by
  have sum : buffer.nwrite - buffer.nread = (buffer.nwrite - (buffer.nread + 1)) + 1 := by
    have whole : (buffer.nwrite - (buffer.nread + 1)) + (buffer.nread + 1) = buffer.nwrite :=
      BitVec.sub_add_cancel _ _
    nth_rewrite 1 [← whole]
    rw [BitVec.add_comm buffer.nread, ← BitVec.add_assoc, BitVec.add_sub_cancel]
  have wraps : buffer.count = (buffer.pop.count + 1) % 2 ^ width := by
    rw [count, sum]
    exact toNat_add_one _
  have bounded : buffer.pop.count < 2 ^ width := BitVec.isLt _
  by_cases last : buffer.pop.count + 1 = 2 ^ width
  · rw [last, Nat.mod_self] at wraps
    exact absurd wraps some
  · rw [wraps, Nat.mod_eq_of_lt (by omega)]

/-- Writing appends. -/
theorem contents_push (divides : capacity ∣ 2 ^ width) (small : capacity < 2 ^ width)
    (room : buffer.count < capacity) (element : α) :
    (buffer.push capacity element).contents capacity = buffer.contents capacity ++ [element] := by
  have position : buffer.nwrite.toNat % capacity =
      (buffer.nread.toNat + buffer.count) % capacity := by
    rw [toNat_nwrite, Nat.mod_mod_of_dvd _ divides]
  rw [contents, count_push small room, List.range_succ, List.map_append]
  congr 1
  · apply List.map_congr_left
    intro index member
    have below : index < buffer.count := List.mem_range.mp member
    have different : (buffer.nread.toNat + index) % capacity ≠ buffer.nwrite.toNat % capacity := by
      rw [position]
      intro same
      have equal := Nat.ModEq.eq_of_lt_of_lt (Nat.ModEq.add_left_cancel' _ same)
        (Nat.lt_trans below room) room
      exact absurd equal (Nat.ne_of_lt below)
    exact update_of_ne different _ _
  · rw [List.map_singleton]
    show [update buffer.data (buffer.nwrite.toNat % capacity) element
      ((buffer.nread.toNat + buffer.count) % capacity)] = [element]
    rw [← position, update_self]

/-- Reading removes the head. -/
theorem contents_pop (divides : capacity ∣ 2 ^ width) (some : buffer.count ≠ 0) :
    buffer.contents capacity = buffer.head capacity :: buffer.pop.contents capacity := by
  rw [contents, ← count_pop some, List.range_succ_eq_map, List.map_cons, List.map_map]
  congr 1
  apply List.map_congr_left
  intro index _
  show buffer.data ((buffer.nread.toNat + (index + 1)) % capacity) =
    buffer.data (((buffer.nread + 1).toNat + index) % capacity)
  have position : ((buffer.nread + 1).toNat + index) % capacity =
      (buffer.nread.toNat + 1 + index) % capacity := by
    rw [toNat_add_one, Nat.add_mod, Nat.mod_mod_of_dvd _ divides, ← Nat.add_mod]
  rw [position, Nat.add_assoc, Nat.add_comm index]

theorem count_retract (some : buffer.count ≠ 0) : buffer.retract.count + 1 = buffer.count := by
  have sum : buffer.nwrite - buffer.nread = (buffer.nwrite - 1 - buffer.nread) + 1 := by
    rw [BitVec.sub_eq_add_neg, BitVec.sub_eq_add_neg (buffer.nwrite - 1), BitVec.add_assoc,
      BitVec.add_comm _ 1, ← BitVec.add_assoc, BitVec.sub_add_cancel]
  have wraps : buffer.count = (buffer.retract.count + 1) % 2 ^ width := by
    rw [count, sum]
    exact toNat_add_one _
  have bounded : buffer.retract.count < 2 ^ width := BitVec.isLt _
  by_cases last : buffer.retract.count + 1 = 2 ^ width
  · rw [last, Nat.mod_self] at wraps
    exact absurd wraps some
  · rw [wraps, Nat.mod_eq_of_lt (by omega)]

/-- The element that was written last. -/
theorem contents_retract (divides : capacity ∣ 2 ^ width) (some : buffer.count ≠ 0) :
    buffer.contents capacity = buffer.retract.contents capacity ++
      [buffer.data ((buffer.nwrite - 1).toNat % capacity)] := by
  have position : (buffer.nwrite - 1).toNat % capacity =
      (buffer.nread.toNat + buffer.retract.count) % capacity := by
    have last := toNat_nwrite buffer.retract
    change (buffer.nwrite - 1).toNat = (buffer.nread.toNat + _) % _ at last
    rw [last, Nat.mod_mod_of_dvd _ divides]
  rw [contents, ← count_retract some, List.range_succ, List.map_append, List.map_singleton,
    position]
  rfl

/-- A third counter between the two divides the contents. -/
theorem contents_split (divides : capacity ∣ 2 ^ width) (data : Nat → α)
    (first middle last : BitVec width) (between : (middle - first).toNat ≤ (last - first).toNat) :
    (mk data first last).contents capacity =
      (mk data first middle).contents capacity ++ (mk data middle last).contents capacity := by
  have counts : (mk data first last).count =
      (mk data first middle).count + (mk data middle last).count := by
    have sum : last - first = (last - middle) + (middle - first) := by
      rw [BitVec.sub_eq_add_neg middle, ← BitVec.add_assoc, BitVec.sub_add_cancel,
        ← BitVec.sub_eq_add_neg]
    have wraps : (last - first).toNat =
        ((last - middle).toNat + (middle - first).toNat) % 2 ^ width := by
      rw [sum, BitVec.toNat_add]
    have bounded : (last - middle).toNat < 2 ^ width := BitVec.isLt _
    have fits : (last - middle).toNat + (middle - first).toNat < 2 ^ width := by
      by_contra large
      have atMost : (middle - first).toNat < 2 ^ width := BitVec.isLt _
      rw [Nat.mod_eq_sub_mod (by omega), Nat.mod_eq_of_lt (by omega)] at wraps
      omega
    rw [Nat.mod_eq_of_lt fits] at wraps
    exact wraps.trans (Nat.add_comm _ _)
  have position : middle.toNat % capacity =
      (first.toNat + (mk data first middle).count) % capacity := by
    rw [toNat_nwrite (mk data first middle), Nat.mod_mod_of_dvd _ divides]
  rw [contents, counts, List.range_add, List.map_append, List.map_map]
  congr 1
  apply List.map_congr_left
  intro index _
  show data ((first.toNat + ((mk data first middle).count + index)) % capacity) =
    data ((middle.toNat + index) % capacity)
  rw [← Nat.add_assoc, Nat.add_mod, ← position, ← Nat.add_mod]

end

end Circular

end Foundation
end Xv6
