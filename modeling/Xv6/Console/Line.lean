import Xv6.Foundation.Circular

namespace Xv6
namespace Console

open Foundation

/-!
# The line buffer of the console

`consoleintr` edits a line at the end of a circular buffer, and `consoleread`
takes characters from its beginning.  Three counters divide the buffer: what is
between `r` and `w` can be read, and what is between `w` and `e` can still be
edited.

`Line` says what the buffer is for, as two lists.  The code refines it, however
often the counters have wrapped around.
-/

def INPUT_BUF : Nat := 128

/-- `C(x)`, the character of a control key. -/
def C (x : Char) : UInt8 :=
  UInt8.ofNat (x.toNat - '@'.toNat)

def newline : UInt8 :=
  UInt8.ofNat '\n'.toNat

/-- The structure `cons`, without its lock. -/
structure Cons where
  buf : Nat → UInt8
  r : BitVec 32
  w : BitVec 32
  e : BitVec 32

/-! ## The code -/

/-- The loop for `C('U')`, for at most `left` rounds. -/
def killLineFrom : (left : Nat) → Cons → Cons
  | 0, cons => cons
  | left + 1, cons =>
    if cons.e ≠ cons.w ∧ cons.buf ((cons.e - 1).toNat % INPUT_BUF) ≠ newline then
      killLineFrom left { cons with e := cons.e - 1 }
    else cons

/-- The loop for `C('U')`.  It ends at `cons.w`. -/
def killLine (cons : Cons) : Cons :=
  killLineFrom (cons.e - cons.w).toNat cons

/-- `'\r'` is stored as a newline. -/
def stored (c : UInt8) : UInt8 :=
  if c = UInt8.ofNat '\r'.toNat then newline else c

/-- `cons.buf[cons.e++ % INPUT_BUF] = c`. -/
def Cons.store (cons : Cons) (c : UInt8) : Cons :=
  { cons with
    buf := Function.update cons.buf (cons.e.toNat % INPUT_BUF) c
    e := cons.e + 1 }

/-- `consoleintr`, and whether it calls `wakeup`.  The process list and the echo are
left out. -/
def consoleintr (c : UInt8) (cons : Cons) : Cons × Bool :=
  if c = C 'P' then (cons, false)
  else if c = C 'U' then (killLine cons, false)
  else if c = C 'H' ∨ c = 127 then
    (if cons.e ≠ cons.w then { cons with e := cons.e - 1 } else cons, false)
  else if c ≠ 0 ∧ (cons.e - cons.r).toNat < INPUT_BUF then
    let cons := cons.store (stored c)
    if stored c = newline ∨ stored c = C 'D' ∨ cons.e = cons.r + BitVec.ofNat 32 INPUT_BUF then
      ({ cons with w := cons.e }, true)
    else (cons, false)
  else (cons, false)

/-! ## The purpose -/

/-- The characters that can be read, and the line that is being edited. -/
structure Line where
  readable : List UInt8
  editing : List UInt8
deriving DecidableEq, Repr

/-- What a character that is typed does. -/
def Line.input (c : UInt8) (line : Line) : Line :=
  if c = C 'P' then line
  else if c = C 'U' then { line with editing := [] }
  else if c = C 'H' ∨ c = 127 then { line with editing := line.editing.dropLast }
  else if c ≠ 0 ∧ line.readable.length + line.editing.length < INPUT_BUF then
    let editing := line.editing ++ [stored c]
    if stored c = newline ∨ stored c = C 'D' ∨
        line.readable.length + editing.length = INPUT_BUF then
      { readable := line.readable ++ editing, editing := [] }
    else { line with editing := editing }
  else line

theorem Line.readable_input_of_erase {c : UInt8} {line : Line}
    (isErase : c = C 'H' ∨ c = 127 ∨ c = C 'U') : (line.input c).readable = line.readable := by
  rcases isErase with rfl | rfl | rfl
  · rfl
  · rfl
  · rfl

namespace Cons

/-- The characters between two counters. -/
def between (cons : Cons) (first last : BitVec 32) : List UInt8 :=
  (Circular.mk cons.buf first last).contents INPUT_BUF

def readable (cons : Cons) : List UInt8 :=
  cons.between cons.r cons.w

def editing (cons : Cons) : List UInt8 :=
  cons.between cons.w cons.e

def line (cons : Cons) : Line where
  readable := cons.readable
  editing := cons.editing

/-- The counters are in order, a full buffer can be read, and the line that is
edited has not been ended. -/
structure Ok (cons : Cons) : Prop where
  ordered : (cons.w - cons.r).toNat ≤ (cons.e - cons.r).toNat
  bounded : (cons.e - cons.r).toNat ≤ INPUT_BUF
  full : (cons.e - cons.r).toNat = INPUT_BUF → cons.w = cons.e
  open' : ∀ c ∈ cons.editing, c ≠ newline ∧ c ≠ C 'D'

end Cons

/-! ## The refinement -/

section

variable {cons : Cons}

theorem divides : INPUT_BUF ∣ 2 ^ 32 := by
  decide

theorem length_between (cons : Cons) (first last : BitVec 32) :
    (cons.between first last).length = (last - first).toNat :=
  Circular.length_contents ..

namespace Cons.Ok

variable (ok : cons.Ok)
include ok

theorem between_r_e : cons.between cons.r cons.e = cons.readable ++ cons.editing :=
  Circular.contents_split divides cons.buf cons.r cons.w cons.e ok.ordered

theorem length : (cons.e - cons.r).toNat = cons.readable.length + cons.editing.length := by
  rw [← length_between cons, ok.between_r_e, List.length_append]

theorem retract (different : cons.e ≠ cons.w) : let after := { cons with e := cons.e - 1 }
    after.Ok ∧ cons.editing = after.editing ++ [cons.buf ((cons.e - 1).toNat % INPUT_BUF)] := by
  intro after
  have some : (Circular.mk cons.buf cons.w cons.e).count ≠ 0 := by
    intro none
    exact different (Circular.count_eq_zero_iff.mp none).symm
  have last : cons.editing = after.editing ++ [cons.buf ((cons.e - 1).toNat % INPUT_BUF)] :=
    Circular.contents_retract divides some
  have fewer : cons.editing.length = after.editing.length + 1 := by
    rw [last, List.length_append, List.length_singleton]
  have length := ok.length
  have nonempty : (Circular.mk cons.buf cons.r cons.e).count ≠ 0 := by
    show (cons.e - cons.r).toNat ≠ 0
    omega
  have counts : (after.e - after.r).toNat + 1 = (cons.e - cons.r).toNat :=
    Circular.count_retract nonempty
  have readable : cons.readable.length = (after.w - after.r).toNat := length_between ..
  have bounded := ok.bounded
  refine ⟨⟨?_, ?_, ?_, ?_⟩, last⟩
  · omega
  · omega
  · intro full
    omega
  · intro c isEdited
    apply ok.open'
    rw [last]
    exact List.mem_append_left _ isEdited

/-- The loop for `C('U')` ends only when the line is empty, because there is no
newline in it. -/
theorem killLineFrom {left : Nat} (enough : cons.editing.length ≤ left) :
    (Console.killLineFrom left cons).Ok ∧
      (Console.killLineFrom left cons).line = ⟨cons.readable, []⟩ ∧
      (Console.killLineFrom left cons).r = cons.r ∧ (Console.killLineFrom left cons).w = cons.w := by
  have finished (empty : cons.editing = []) : cons.Ok ∧ cons.line = ⟨cons.readable, []⟩ ∧
      cons.r = cons.r ∧ cons.w = cons.w := by
    refine ⟨ok, ?_, rfl, rfl⟩
    rw [Cons.line, empty]
  induction left generalizing cons with
  | zero => exact finished (List.eq_nil_of_length_eq_zero (Nat.le_zero.mp enough))
  | succ left ih =>
    rw [Console.killLineFrom]
    by_cases different : cons.e ≠ cons.w
    · rcases ok.retract different with ⟨okAfter, last⟩
      have notNewline : cons.buf ((cons.e - 1).toNat % INPUT_BUF) ≠ newline := by
        apply (ok.open' _ _).1
        rw [last]
        exact List.mem_append_right _ (List.mem_singleton_self _)
      rw [if_pos ⟨different, notNewline⟩]
      rw [last, List.length_append, List.length_singleton] at enough
      apply ih okAfter (by omega)
      intro empty
      refine ⟨okAfter, ?_, rfl, rfl⟩
      rw [Cons.line, empty]
    · rw [if_neg fun both => different both.1]
      apply finished
      apply List.eq_nil_of_length_eq_zero
      rw [Cons.editing, length_between, not_ne_iff.mp different, BitVec.sub_self]
      rfl

/-- `e` is counted up. -/
theorem store (room : (cons.e - cons.r).toNat < INPUT_BUF) (c : UInt8) :
    (cons.store c).readable = cons.readable ∧ (cons.store c).editing = cons.editing ++ [c] ∧
      ((cons.store c).e - cons.r).toNat = (cons.e - cons.r).toNat + 1 := by
  have small : INPUT_BUF < 2 ^ 32 := by decide
  have room' : (Circular.mk cons.buf cons.r cons.e).count < INPUT_BUF := room
  have whole : (cons.store c).between cons.r (cons.store c).e = cons.between cons.r cons.e ++ [c] :=
    Circular.contents_push divides small room' c
  have counts : ((cons.store c).e - cons.r).toNat = (cons.e - cons.r).toNat + 1 :=
    Circular.count_push small room' c
  have ordered := ok.ordered
  have parts : (cons.store c).between cons.r (cons.store c).e =
      (cons.store c).readable ++ (cons.store c).editing :=
    Circular.contents_split divides (cons.store c).buf cons.r cons.w (cons.store c).e (by omega)
  rw [parts, ok.between_r_e, List.append_assoc] at whole
  have sameLength : (cons.store c).readable.length = cons.readable.length := by
    rw [Cons.readable, Cons.readable, length_between, length_between]
    rfl
  rcases List.append_inj whole sameLength with ⟨readable, editing⟩
  exact ⟨readable, editing, counts⟩

/-- `r` is counted up. -/
theorem take (some : cons.r ≠ cons.w) : let after := { cons with r := cons.r + 1 }
    after.Ok ∧ cons.readable = cons.buf (cons.r.toNat % INPUT_BUF) :: after.readable := by
  intro after
  have nonempty : (Circular.mk cons.buf cons.r cons.w).count ≠ 0 := by
    intro none
    exact some (Circular.count_eq_zero_iff.mp none)
  have head : cons.readable = (Circular.mk cons.buf cons.r cons.w).head INPUT_BUF ::
      (Circular.mk cons.buf cons.r cons.w).pop.contents INPUT_BUF :=
    Circular.contents_pop divides nonempty
  have readable := Circular.count_pop nonempty
  simp only [Circular.count, Circular.pop] at readable
  have ordered := ok.ordered
  have bounded := ok.bounded
  have nonempty' : (Circular.mk cons.buf cons.r cons.e).count ≠ 0 := by
    show (cons.e - cons.r).toNat ≠ 0
    omega
  have whole := Circular.count_pop nonempty'
  simp only [Circular.count, Circular.pop] at whole
  refine ⟨⟨?_, ?_, ?_, ok.open'⟩, head⟩
  · show (cons.w - (cons.r + 1)).toNat ≤ (cons.e - (cons.r + 1)).toNat
    omega
  · show (cons.e - (cons.r + 1)).toNat ≤ INPUT_BUF
    omega
  · intro full
    change (cons.e - (cons.r + 1)).toNat = INPUT_BUF at full
    omega

end Cons.Ok

theorem between_self (cons : Cons) (counter : BitVec 32) : cons.between counter counter = [] := by
  apply List.eq_nil_of_length_eq_zero
  rw [length_between, BitVec.sub_self]
  rfl

/-- What `consoleintr` does to the buffer: it does what a typed character does to
the line, and what becomes readable is what is between the old and the new `w`. -/
structure Typed (c : UInt8) (cons after : Cons) (woken : Bool) : Prop where
  ok : after.Ok
  line : after.line = cons.line.input c
  r : after.r = cons.r
  committed : after.readable = cons.readable ++ after.between cons.w after.w
  quiet : woken = false → after.readable = cons.readable

theorem Typed.of_same {c : UInt8} {after : Cons} (ok : after.Ok)
    (line : after.line = cons.line.input c) (sameR : after.r = cons.r) (sameW : after.w = cons.w)
    (readable : after.readable = cons.readable) : Typed c cons after false where
  ok := ok
  line := line
  r := sameR
  committed := by rw [sameW, between_self, List.append_nil, readable]
  quiet := fun _ => readable

theorem Cons.Ok.consoleintr_stores (ok : cons.Ok) {c : UInt8} (notP : ¬ c = C 'P')
    (notU : ¬ c = C 'U') (notErase : ¬ (c = C 'H' ∨ c = 127))
    (accepted : c ≠ 0 ∧ (cons.e - cons.r).toNat < INPUT_BUF) :
    let result :=
      if stored c = newline ∨ stored c = C 'D' ∨
          (cons.store (stored c)).e = (cons.store (stored c)).r + BitVec.ofNat 32 INPUT_BUF then
        ({ cons.store (stored c) with w := (cons.store (stored c)).e }, true)
      else (cons.store (stored c), false)
    Typed c cons result.1 result.2 := by
  intro result
  rcases ok.store accepted.2 (stored c) with ⟨readable, editing, counts⟩
  have length := ok.length
  have ordered := ok.ordered
  have room := accepted.2
  have small : INPUT_BUF < 2 ^ 32 := by decide
  have isFull : (cons.store (stored c)).e = cons.r + BitVec.ofNat 32 INPUT_BUF ↔
      cons.readable.length + (cons.editing ++ [stored c]).length = INPUT_BUF := by
    have full : (Circular.mk cons.buf cons.r (cons.store (stored c)).e).count = INPUT_BUF ↔ _ :=
      Circular.count_eq_capacity_iff small
    rw [← full, Circular.count, List.length_append, List.length_singleton]
    show ((cons.store (stored c)).e - cons.r).toNat = _ ↔ _
    omega
  have input : cons.line.input c = if stored c = newline ∨ stored c = C 'D' ∨
      (cons.store (stored c)).e = cons.r + BitVec.ofNat 32 INPUT_BUF then
        ⟨cons.readable ++ (cons.editing ++ [stored c]), []⟩
      else ⟨cons.readable, cons.editing ++ [stored c]⟩ := by
    rw [length] at accepted
    simp only [Line.input, if_neg notP, if_neg notU, if_neg notErase, isFull]
    exact if_pos accepted
  by_cases commits : stored c = newline ∨ stored c = C 'D' ∨
      (cons.store (stored c)).e = cons.r + BitVec.ofNat 32 INPUT_BUF
  · rw [if_pos commits] at input
    have isResult : result =
        ({ cons.store (stored c) with w := (cons.store (stored c)).e }, true) := if_pos commits
    rw [isResult]
    have all : (cons.store (stored c)).between cons.r (cons.store (stored c)).e =
        cons.readable ++ (cons.editing ++ [stored c]) := by
      rw [← readable, ← editing]
      exact Circular.contents_split divides _ cons.r cons.w _ (by omega)
    refine ⟨⟨Nat.le_refl _, ?_, fun _ => rfl, ?_⟩, ?_, rfl, ?_, fun impossible => by cases impossible⟩
    · show ((cons.store (stored c)).e - cons.r).toNat ≤ INPUT_BUF
      omega
    · intro c' isEdited
      rw [Cons.editing, between_self] at isEdited
      cases isEdited
    · rw [input, Cons.line, Cons.editing, between_self]
      exact congrArg (Line.mk · []) all
    · rw [← editing] at all
      exact all
  · rw [if_neg commits] at input
    have isResult : result = (cons.store (stored c), false) := if_neg commits
    rw [isResult]
    rw [not_or, not_or] at commits
    refine Typed.of_same ?_ ?_ rfl rfl readable
    · refine ⟨?_, ?_, ?_, ?_⟩
      · show (cons.w - cons.r).toNat ≤ ((cons.store (stored c)).e - cons.r).toNat
        omega
      · show ((cons.store (stored c)).e - cons.r).toNat ≤ INPUT_BUF
        omega
      · intro full
        change ((cons.store (stored c)).e - cons.r).toNat = INPUT_BUF at full
        apply absurd (isFull.mpr _) commits.2.2
        rw [List.length_append, List.length_singleton]
        omega
      · rw [editing]
        intro c' isEdited
        rcases List.mem_append.mp isEdited with before | isNew
        · exact ok.open' c' before
        · rw [List.mem_singleton.mp isNew]
          exact ⟨commits.1, commits.2.1⟩
    · rw [input, Cons.line, readable, editing]

theorem consoleintr_typed (ok : cons.Ok) (c : UInt8) :
    Typed c cons (consoleintr c cons).1 (consoleintr c cons).2 := by
  unfold consoleintr
  split
  · rename_i isP
    apply Typed.of_same ok _ rfl rfl rfl
    rw [Line.input, if_pos isP]
  split
  · rename_i notP isU
    have enough : cons.editing.length ≤ (cons.e - cons.w).toNat := Nat.le_of_eq (length_between ..)
    rcases ok.killLineFrom enough with ⟨okAfter, line, sameR, sameW⟩
    apply Typed.of_same okAfter _ sameR sameW
    · exact congrArg Line.readable line
    · rw [Line.input, if_neg notP, if_pos isU]
      exact line
  split
  · rename_i notP notU isErase
    have erased : cons.line.input c = ⟨cons.readable, cons.editing.dropLast⟩ := by
      rw [Line.input, if_neg notP, if_neg notU, if_pos isErase]
      rfl
    split
    · rename_i different
      rcases ok.retract different with ⟨okAfter, last⟩
      refine Typed.of_same okAfter ?_ rfl rfl rfl
      rw [erased, last, List.dropLast_concat]
      rfl
    · rename_i same
      have empty : cons.editing = [] := by
        rw [Cons.editing, not_ne_iff.mp same, between_self]
      apply Typed.of_same ok _ rfl rfl rfl
      rw [erased, Cons.line, empty]
      rfl
  split
  · rename_i notP notU notErase accepted
    exact ok.consoleintr_stores notP notU notErase accepted
  · rename_i notP notU notErase refused
    apply Typed.of_same ok _ rfl rfl rfl
    have length := ok.length
    rw [length] at refused
    rw [Line.input, if_neg notP, if_neg notU, if_neg notErase]
    exact (if_neg refused).symm

end

end Console
end Xv6
