import Mathlib.Algebra.Group.Int.Defs
import Mathlib.Algebra.GroupWithZero.Nat

namespace Xv6
namespace Foundation

/-!
# Byte blocks and little-endian fields

A block of fixed size is a function from positions to bytes.  Reading past
its end gives zero, so a field can be named by its offset alone; the rules
that need the field to lie inside the block say so.

All writes are splices: a range of positions takes its bytes from somewhere
else and every other position keeps its own.  A little-endian field of a
given width is one such range.
-/

/-- A block of `size` bytes. -/
abbrev Bytes (size : Nat) := Fin size → UInt8

variable {position offset length width field : Nat}

namespace Bytes

variable {size : Nat}

def zero : Bytes size :=
  fun _ => 0

/-- The byte at a position. -/
def get (block : Bytes size) (position : Nat) : UInt8 :=
  if inside : position < size then block ⟨position, inside⟩ else 0

/-- Copy `length` bytes of a source over the block, from an offset on. -/
def splice (block : Bytes size) (offset length : Nat) (source : Nat → UInt8) : Bytes size :=
  fun position =>
    if offset ≤ position.val ∧ position.val < offset + length then source (position.val - offset)
    else block position

theorem ext_get {first second : Bytes size}
    (agree : ∀ position, position < size → first.get position = second.get position) :
    first = second := by
  funext position
  have same := agree position.val position.isLt
  simpa [get] using same

theorem get_splice (block : Bytes size) (offset length : Nat) (source : Nat → UInt8)
    (inside : position < size) :
    (block.splice offset length source).get position =
      if offset ≤ position ∧ position < offset + length then source (position - offset)
      else block.get position := by
  simp [get, splice, inside]

theorem get_splice_outside (block : Bytes size) (source : Nat → UInt8)
    (outside : position < offset ∨ offset + length ≤ position) :
    (block.splice offset length source).get position = block.get position := by
  by_cases inside : position < size
  · rw [get_splice block offset length source inside, if_neg (by omega)]
  · simp [get, inside]

/-! ## Little-endian numbers -/

/-- The number whose bytes are given, least significant first. -/
def fromLE : (width : Nat) → (Nat → UInt8) → Nat
  | 0, _ => 0
  | width + 1, bytes => (bytes 0).toNat + 256 * fromLE width fun position => bytes (position + 1)

/-- The bytes of a number, least significant first. -/
def toLE (value : Nat) (position : Nat) : UInt8 :=
  UInt8.ofNat (value / 256 ^ position)

theorem fromLE_congr {first second : Nat → UInt8}
    (agree : ∀ position, position < width → first position = second position) :
    fromLE width first = fromLE width second := by
  induction width generalizing first second with
  | zero => rfl
  | succ width ih =>
    rw [fromLE, fromLE, agree 0 (by omega),
      ih fun position inside => agree (position + 1) (by omega)]

theorem fromLE_toLE (width value : Nat) : fromLE width (toLE value) = value % 256 ^ width := by
  induction width generalizing value with
  | zero => simp [fromLE, Nat.mod_one]
  | succ width ih =>
    have shifted : (fun position => toLE value (position + 1)) = toLE (value / 256) := by
      funext position
      rw [toLE, toLE, Nat.div_div_eq_div_mul, Nat.pow_succ, Nat.mul_comm]
    have low : (toLE value 0).toNat = value % 256 := by
      simp [toLE]
    rw [fromLE, shifted, ih, low, Nat.pow_succ, Nat.mul_comm (256 ^ width), Nat.mod_mul]

/-- A number of the given width in bits, read as two's complement. -/
def signed (bits value : Nat) : Int :=
  if value < 2 ^ (bits - 1) then value else value - 2 ^ bits

/-! ## Fields -/

section

variable (block : Bytes size) (offset : Nat) (width : Nat)

/-- The little-endian field of some width at an offset. -/
def getLE : Nat :=
  fromLE width fun position => block.get (offset + position)

def setLE (value : Nat) : Bytes size :=
  block.splice offset width (toLE value)

end

theorem getLE_zero (offset width : Nat) : (zero : Bytes size).getLE offset width = 0 := by
  have bytes : ∀ position, position < width →
      (zero : Bytes size).get (offset + position) = toLE 0 position := by
    intro position _
    simp [get, zero, toLE]
  rw [getLE, fromLE_congr bytes, fromLE_toLE, Nat.zero_mod]

variable (block : Bytes size)

theorem getLE_setLE (value : Nat) (inside : offset + width ≤ size) :
    (block.setLE offset width value).getLE offset width = value % 256 ^ width := by
  rw [← fromLE_toLE width value]
  apply fromLE_congr
  intro position within
  rw [setLE, get_splice block offset width _ (by omega), if_pos (by omega), Nat.add_sub_cancel_left]

theorem getLE_splice_outside (source : Nat → UInt8)
    (outside : field + width ≤ offset ∨ offset + length ≤ field) :
    (block.splice offset length source).getLE field width = block.getLE field width := by
  apply fromLE_congr
  intro position within
  exact get_splice_outside block source (by omega)

theorem getLE_setLE_outside (value : Nat)
    {fieldWidth : Nat} (outside : field + fieldWidth ≤ offset ∨ offset + width ≤ field) :
    (block.setLE offset width value).getLE field fieldWidth = block.getLE field fieldWidth :=
  getLE_splice_outside block _ outside

/-- A table of fields of one width, copied into the block in one piece. -/
theorem getLE_splice_table {count : Nat} (values : Nat → Nat)
    {index : Nat} (inTable : index < count) (inside : offset + width * count ≤ size) :
    (block.splice offset (width * count) fun position =>
        toLE (values (position / width)) (position % width)).getLE (offset + width * index) width =
      values index % 256 ^ width := by
  rw [← fromLE_toLE width (values index)]
  apply fromLE_congr
  intro position within
  have fits : width * index + width ≤ width * count := by
    rw [← Nat.mul_succ]
    exact Nat.mul_le_mul_left width inTable
  rw [get_splice block offset _ _ (by omega), if_pos (by omega),
    show offset + width * index + position - offset = width * index + position by omega,
    Nat.mul_add_div (by omega), Nat.div_eq_of_lt within, Nat.mul_add_mod, Nat.mod_eq_of_lt within,
    Nat.add_zero]

end Bytes

/-! ## Overwriting a list -/

section

universe u

variable {α : Type u}

/-- A range of a list is replaced, which may extend the list. -/
def overwrite (list : List α) (off : Nat) (new : List α) : List α :=
  list.take off ++ new ++ list.drop (off + new.length)

variable {list : List α} {off : Nat}

theorem length_overwrite (inside : off ≤ list.length) (new : List α) :
    (overwrite list off new).length = max list.length (off + new.length) := by
  rw [overwrite, List.length_append, List.length_append, List.length_take, List.length_drop]
  omega

theorem overwrite_nil (list : List α) (off : Nat) : overwrite list off [] = list := by
  rw [overwrite, List.append_nil, List.length_nil, Nat.add_zero, List.take_append_drop]

/-- Two ranges that follow each other are one range. -/
theorem overwrite_append (inside : off ≤ list.length) (first second : List α) :
    overwrite (overwrite list off first) (off + first.length) second =
      overwrite list off (first ++ second) := by
  have length : (list.take off ++ first).length = off + first.length := by
    rw [List.length_append, List.length_take, Nat.min_eq_left inside]
  have front : (overwrite list off first).take (off + first.length) = list.take off ++ first := by
    rw [overwrite, List.take_append_of_le_length (by omega), List.take_of_length_le (by omega)]
  have back : (overwrite list off first).drop (off + first.length + second.length) =
      list.drop (off + first.length + second.length) := by
    rw [overwrite, List.drop_append, List.drop_eq_nil_of_le (by omega), List.nil_append,
      List.drop_drop, length]
    congr 1
    omega
  rw [overwrite, front, back, overwrite, List.length_append, List.append_assoc (list.take off),
    Nat.add_assoc]

end

end Foundation
end Xv6
