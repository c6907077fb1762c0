import Mathlib.Data.BitVec
import Mathlib.Data.List.Forall2
import Mathlib.Tactic.Ring

namespace Xv6
namespace Printf

/-!
# The `printf` of user programs

The bytes that `vprintf` writes are compared with the values of the arguments.
An argument is the 64-bit slot that `va_arg` takes; an `int` is its lower half.
`printint` takes an `int`, so `%l` shows the lower half of its argument only.
-/

/-- The table `digits`. -/
def digits : List UInt8 :=
  ['0', '1', '2', '3', '4', '5', '6', '7', '8', '9', 'A', 'B', 'C', 'D', 'E', 'F'].map Char.toUInt8

def digit (n : Nat) : UInt8 := digits.getD n 0

/-- `do buf[i++] = digits[x % base]; while ((x /= base) != 0);` -/
def fill (base : Nat) : (rounds x : Nat) → List UInt8
  | 0, _ => []
  | rounds + 1, x =>
    digit (x % base) :: if x / base = 0 then [] else fill base rounds (x / base)

/-- The array `buf` of `printint`.  A `uint` has at most 32 digits. -/
def printintBuf (xx : BitVec 32) (base : Nat) (sgn : Bool) : List UInt8 :=
  if sgn = true ∧ xx.toInt < 0 then fill base 32 (-xx).toNat ++ ['-'.toUInt8]
  else fill base 32 xx.toNat

def printint (xx : BitVec 32) (base : Nat) (sgn : Bool) : List UInt8 :=
  (printintBuf xx base sgn).reverse

/-- The loop of `printptr`. -/
def printptrFrom : (rounds : Nat) → (x : BitVec 64) → List UInt8
  | 0, _ => []
  | rounds + 1, x => digit (x >>> 60).toNat :: printptrFrom rounds (x <<< 4)

def printptr (x : BitVec 64) : List UInt8 :=
  '0'.toUInt8 :: 'x'.toUInt8 :: printptrFrom 16 x

/-- What is written for the character after a `%`, and the arguments left. -/
def directive (strings : BitVec 64 → List UInt8) (c : UInt8) (ap : List (BitVec 64)) :
    List UInt8 × List (BitVec 64) :=
  let arg := ap.headD 0
  if c = 'd'.toUInt8 then (printint (arg.setWidth 32) 10 true, ap.tail)
  else if c = 'l'.toUInt8 then (printint (arg.setWidth 32) 10 false, ap.tail)
  else if c = 'x'.toUInt8 then (printint (arg.setWidth 32) 16 false, ap.tail)
  else if c = 'p'.toUInt8 then (printptr arg, ap.tail)
  else if c = 's'.toUInt8 then
    (if arg = 0 then ['(', 'n', 'u', 'l', 'l', ')'].map Char.toUInt8 else strings arg, ap.tail)
  else if c = 'c'.toUInt8 then ([⟨arg.setWidth 8⟩], ap.tail)
  else if c = '%'.toUInt8 then ([c], ap)
  else (['%'.toUInt8, c], ap)

/-- The loop of `vprintf`; `state` is set after a `%`. -/
def vprintf (strings : BitVec 64 → List UInt8) :
    (fmt : List UInt8) → (ap : List (BitVec 64)) → (state : Bool) → List UInt8
  | [], _, _ => []
  | c :: fmt, ap, false =>
    if c = '%'.toUInt8 then vprintf strings fmt ap true else c :: vprintf strings fmt ap false
  | c :: fmt, ap, true =>
    (directive strings c ap).1 ++ vprintf strings fmt (directive strings c ap).2 false

/-! ## Numerals -/

/-- The number that a text of digits stands for. -/
def value (base : Nat) (text : List UInt8) : Nat :=
  text.foldl (fun n c => n * base + digits.idxOf c) 0

/-- The text is the numeral of the number, without leading zeros. -/
structure Numeral (base n : Nat) (text : List UInt8) : Prop where
  nonempty : text ≠ []
  digits : ∀ c ∈ text, c ∈ digits.take base
  value : value base text = n
  short : text.head? = some '0'.toUInt8 → text = ['0'.toUInt8]

variable {base n rounds x : Nat} {text : List UInt8}

theorem idxOf_digit : ∀ d < 16, digits.idxOf (digit d) = d := by
  decide

theorem digit_mem : ∀ base ≤ 16, ∀ d < base, digit d ∈ digits.take base := by
  decide

theorem numeral_digit (atMost : base ≤ 16) {d : Nat} (small : d < base) :
    Numeral base d [digit d] where
  nonempty := List.cons_ne_nil _ _
  digits := by
    intro c member
    rw [List.mem_singleton.mp member]
    exact digit_mem base atMost d small
  value := by simp [value, idxOf_digit d (by omega)]
  short := by simp

theorem Numeral.snoc (numeral : Numeral base n text) (positive : n ≠ 0) (atMost : base ≤ 16) {d : Nat}
    (small : d < base) : Numeral base (n * base + d) (text ++ [digit d]) where
  nonempty := by simp
  digits := by
    intro c member
    rcases List.mem_append.mp member with before | last
    · exact numeral.digits c before
    · exact (numeral_digit atMost small).digits c last
  value := by
    have before := numeral.value
    rw [Printf.value] at before
    simp [Printf.value, before, idxOf_digit d (by omega)]
  short := by
    intro zero
    rw [List.head?_append_of_ne_nil _ numeral.nonempty] at zero
    refine absurd ?_ positive
    rw [← numeral.value, numeral.short zero, Printf.value, List.foldl_cons, Nat.zero_mul]
    rfl

theorem fill_numeral (two : 2 ≤ base) (atMost : base ≤ 16) (enough : x < base ^ (rounds + 1)) :
    Numeral base x (fill base (rounds + 1) x).reverse := by
  induction rounds generalizing x with
  | zero =>
    rw [zero_add, pow_one] at enough
    rw [fill, if_pos (Nat.div_eq_of_lt enough), Nat.mod_eq_of_lt enough]
    exact numeral_digit atMost enough
  | succ rounds ih =>
    have small := Nat.mod_lt x (show 0 < base by omega)
    rw [fill]
    split
    · rename_i last
      have fits := Nat.div_add_mod x base
      rw [last, Nat.mul_zero, Nat.zero_add] at fits
      simpa [fits] using numeral_digit atMost small
    · rename_i more
      have before := ih (Nat.div_lt_of_lt_mul (by rwa [← pow_succ']))
      have whole := before.snoc more atMost small
      rwa [Nat.div_add_mod', ← List.reverse_cons] at whole

theorem fill_length {k : Nat} (small : x < base ^ (k + 1)) : (fill base rounds x).length ≤ k + 1 := by
  induction k generalizing rounds x with
  | zero =>
    rw [zero_add, pow_one] at small
    cases rounds with
    | zero => exact Nat.zero_le _
    | succ rounds => simp [fill, Nat.div_eq_of_lt small]
  | succ k ih =>
    cases rounds with
    | zero => exact Nat.zero_le _
    | succ rounds =>
      rw [fill, List.length_cons]
      split
      · simp
      · exact Nat.succ_le_succ (ih (Nat.div_lt_of_lt_mul (by rwa [← pow_succ'])))

theorem idxOf_lt {c : UInt8} (member : c ∈ digits.take base) : digits.idxOf c < base := by
  have isFirst : digits.idxOf c = (digits.take base).idxOf c := by
    conv_lhs => rw [← List.take_append_drop base digits]
    exact List.idxOf_append_of_mem member
  rw [isFirst]
  exact Nat.lt_of_lt_of_le (List.idxOf_lt_length_of_mem member) (List.length_take_le base digits)

theorem Numeral.lt_pow (numeral : Numeral base n text) : n < base ^ text.length := by
  have bound : ∀ (text : List UInt8) (m : Nat), (∀ c ∈ text, c ∈ Printf.digits.take base) →
      text.foldl (fun n c => n * base + Printf.digits.idxOf c) m < (m + 1) * base ^ text.length := by
    intro text
    induction text with
    | nil =>
      intro m _
      simp
    | cons c text ih =>
      intro m isDigit
      rw [List.forall_mem_cons] at isDigit
      have small := idxOf_lt isDigit.1
      rw [List.foldl_cons, List.length_cons, pow_succ', ← Nat.mul_assoc]
      refine Nat.lt_of_lt_of_le (ih _ isDigit.2) (Nat.mul_le_mul_right _ ?_)
      rw [Nat.add_mul, Nat.one_mul]
      omega
  have whole := bound text 0 numeral.digits
  rwa [Nat.zero_add, Nat.one_mul, ← Printf.value, numeral.value] at whole

theorem Numeral.fill_length_le (numeral : Numeral base n text) (least : x ≤ n) :
    (fill base rounds x).length ≤ text.length := by
  have positive := List.length_pos_iff.mpr numeral.nonempty
  have small := numeral.lt_pow
  obtain ⟨k, isLength⟩ : ∃ k, text.length = k + 1 := ⟨text.length - 1, by omega⟩
  rw [isLength] at small ⊢
  exact fill_length (Nat.lt_of_le_of_lt least small)

theorem printptrFrom_digits (rounds : Nat) (x : BitVec 64) :
    (printptrFrom rounds x).length = rounds ∧ ∀ c ∈ printptrFrom rounds x, c ∈ digits := by
  induction rounds generalizing x with
  | zero => exact ⟨rfl, fun c impossible => by cases impossible⟩
  | succ rounds ih =>
    rcases ih (x <<< 4) with ⟨length, isDigit⟩
    have top : digit (x >>> 60).toNat ∈ digits := digit_mem 16 (le_refl _) _ (by bv_omega)
    exact ⟨congrArg _ length, List.forall_mem_cons.mpr ⟨top, isDigit⟩⟩

theorem printptrFrom_value {m : Nat} (all : rounds + m = 16) (x : BitVec 64) (n : Nat) :
    (printptrFrom rounds x).foldl (fun n c => n * 16 + digits.idxOf c) n =
      n * 16 ^ rounds + x.toNat / 16 ^ m := by
  induction rounds generalizing m x n with
  | zero =>
    rw [Nat.zero_add] at all
    subst all
    rw [Nat.div_eq_of_lt (by omega)]
    simp [printptrFrom]
  | succ rounds ih =>
    have isTop : (x >>> 60).toNat = x.toNat / 16 ^ 15 := by
      rw [BitVec.toNat_ushiftRight, Nat.shiftRight_eq_div_pow]
      rfl
    have isRest : (x <<< 4).toNat = x.toNat % 16 ^ 15 * 16 := by
      rw [BitVec.toNat_shiftLeft, Nat.shiftLeft_eq, ← Nat.mul_mod_mul_right]
      rfl
    have split : 16 ^ 15 = 16 ^ rounds * 16 ^ m := by
      rw [← pow_add]
      congr 1
      omega
    have whole : x.toNat / 16 ^ m = x.toNat / 16 ^ 15 * 16 ^ rounds + x.toNat % 16 ^ 15 / 16 ^ m := by
      conv_lhs => rw [← Nat.mod_add_div' x.toNat (16 ^ 15), split, ← Nat.mul_assoc]
      rw [Nat.add_mul_div_right _ _ (Nat.pow_pos (by decide)), ← split, Nat.add_comm]
    rw [printptrFrom, List.foldl_cons, ih (m := m + 1) (by omega), idxOf_digit _ (by omega), isTop,
      isRest, pow_succ 16 m, Nat.mul_div_mul_right _ _ (by decide), whole]
    ring

/-! ## What the directives write -/

/-- A part of a format string, with its argument. -/
inductive Piece where
  | char (c : UInt8)
  | d (arg : BitVec 64)
  | l (arg : BitVec 64)
  | x (arg : BitVec 64)
  | p (arg : BitVec 64)

namespace Piece

def format : Piece → List UInt8
  | .char c => [c]
  | .d _ => ['%'.toUInt8, 'd'.toUInt8]
  | .l _ => ['%'.toUInt8, 'l'.toUInt8]
  | .x _ => ['%'.toUInt8, 'x'.toUInt8]
  | .p _ => ['%'.toUInt8, 'p'.toUInt8]

def args : Piece → List (BitVec 64)
  | .char _ => []
  | .d arg | .l arg | .x arg | .p arg => [arg]

/-- The text is the exact rendering of the piece. -/
def Renders : Piece → (text : List UInt8) → Prop
  | .char c, text => text = [c]
  | .d arg, text =>
    let value := (arg.setWidth 32).toInt
    if value < 0 then ∃ rest, text = '-'.toUInt8 :: rest ∧ Numeral 10 value.natAbs rest
    else Numeral 10 value.natAbs text
  | .l arg, text => Numeral 10 arg.toNat text
  | .x arg, text => Numeral 16 (arg.setWidth 32).toNat text
  | .p arg, text => ∃ rest, text = '0'.toUInt8 :: 'x'.toUInt8 :: rest ∧ rest.length = 16 ∧
    (∀ c ∈ rest, c ∈ digits) ∧ value 16 rest = arg.toNat

/-- An ordinary character. -/
def Ordinary : Piece → Prop
  | .char c => c ≠ '%'.toUInt8
  | _ => True

/-- `%l` has to show 32 bits at most. -/
def Short : Piece → Prop
  | .l arg => arg.toNat < 2 ^ 32
  | _ => True

/-- What `vprintf` writes for the piece. -/
def written : Piece → List UInt8
  | .char c => [c]
  | .d arg => printint (arg.setWidth 32) 10 true
  | .l arg => printint (arg.setWidth 32) 10 false
  | .x arg => printint (arg.setWidth 32) 16 false
  | .p arg => printptr arg

theorem vprintf_format (strings : BitVec 64 → List UInt8) {piece : Piece}
    (ordinary : piece.Ordinary) (fmt : List UInt8) (ap : List (BitVec 64)) :
    vprintf strings (piece.format ++ fmt) (piece.args ++ ap) false =
      piece.written ++ vprintf strings fmt ap false := by
  cases piece with
  | char c => exact if_neg ordinary
  | d arg | l arg | x arg | p arg => rfl

theorem numeral_unsigned (xx : BitVec 32) (two : 2 ≤ base) (atMost : base ≤ 16) :
    Numeral base xx.toNat (fill base 32 xx.toNat).reverse :=
  fill_numeral two atMost (Nat.lt_of_lt_of_le xx.isLt (Nat.pow_le_pow_left two 32))

theorem toNat_neg_eq_natAbs {xx : BitVec 32} (negative : xx.toInt < 0) :
    (-xx).toNat = xx.toInt.natAbs := by
  rw [BitVec.toInt_eq_toNat_cond] at negative ⊢
  rw [BitVec.toNat_neg]
  omega

theorem toNat_eq_natAbs {xx : BitVec 32} (positive : ¬ xx.toInt < 0) :
    xx.toNat = xx.toInt.natAbs := by
  rw [BitVec.toInt_eq_toNat_cond] at positive ⊢
  omega

theorem renders_written {piece : Piece} (short : piece.Short) : piece.Renders piece.written := by
  cases piece with
  | char c => exact rfl
  | d arg =>
    simp only [Renders, written, printint, printintBuf, true_and]
    split
    · rename_i negative
      refine ⟨_, by rw [List.reverse_append]; rfl, ?_⟩
      rw [← toNat_neg_eq_natAbs negative]
      exact numeral_unsigned _ (by decide) (by decide)
    · rename_i positive
      rw [← toNat_eq_natAbs positive]
      exact numeral_unsigned _ (by decide) (by decide)
  | l arg =>
    have same : (arg.setWidth 32).toNat = arg.toNat := Nat.mod_eq_of_lt short
    rw [Renders, ← same]
    exact numeral_unsigned _ (by decide) (by decide)
  | x arg => exact numeral_unsigned _ (by decide) (by decide)
  | p arg =>
    rcases printptrFrom_digits 16 arg with ⟨length, isDigit⟩
    refine ⟨_, rfl, length, isDigit, ?_⟩
    rw [value, printptrFrom_value (m := 0) rfl arg 0]
    simp

theorem length_written_le {piece : Piece} (renders : piece.Renders text) :
    piece.written.length ≤ text.length := by
  cases piece with
  | char c =>
    rw [show text = [c] from renders]
    exact Nat.le_refl _
  | d arg =>
    simp only [Renders] at renders
    simp only [written, printint, printintBuf, List.length_reverse, true_and]
    split at renders
    · rename_i negative
      rcases renders with ⟨rest, rfl, numeral⟩
      have digits : (fill 10 32 _).length ≤ _ :=
        numeral.fill_length_le (toNat_neg_eq_natAbs negative).le
      rw [if_pos negative, List.length_append, List.length_singleton, List.length_cons]
      omega
    · rename_i positive
      rw [if_neg positive]
      exact renders.fill_length_le (toNat_eq_natAbs positive).le
  | l arg =>
    simp only [written, printint, printintBuf, List.length_reverse, Bool.false_eq_true, false_and,
      if_false]
    exact renders.fill_length_le (Nat.mod_le _ _)
  | x arg =>
    simp only [written, printint, printintBuf, List.length_reverse, Bool.false_eq_true, false_and,
      if_false]
    exact renders.fill_length_le (Nat.le_refl _)
  | p arg =>
    rcases renders with ⟨rest, rfl, length, _⟩
    simp [written, printptr, length, (printptrFrom_digits 16 arg).1]

theorem short_of_renders {piece : Piece} (renders : piece.Renders piece.written) : piece.Short := by
  cases piece with
  | l arg =>
    have numeral : Numeral 10 _ _ := numeral_unsigned (arg.setWidth 32) (by decide) (by decide)
    have shown := numeral.value
    have exactly : value 10 (fill 10 32 (arg.setWidth 32).toNat).reverse = arg.toNat :=
      renders.value
    rw [shown] at exactly
    rw [Short, ← exactly]
    exact (arg.setWidth 32).isLt
  | char c | d arg | x arg | p arg => trivial

end Piece

/-- Two ways to cut a text into pieces are the same, if no piece of the first
is longer than that of the second. -/
theorem eq_of_flatten_eq {shorter longer : List (List UInt8)}
    (lengths : List.Forall₂ (fun first second => first.length ≤ second.length) shorter longer)
    (same : shorter.flatten = longer.flatten) : shorter = longer := by
  have total : ∀ {shorter longer : List (List UInt8)},
      List.Forall₂ (fun first second => first.length ≤ second.length) shorter longer →
        shorter.flatten.length ≤ longer.flatten.length := by
    intro shorter longer lengths
    induction lengths with
    | nil => exact Nat.le_refl _
    | cons first _ ih =>
      rw [List.flatten_cons, List.flatten_cons, List.length_append, List.length_append]
      omega
  induction lengths with
  | nil => rfl
  | cons first rest ih =>
    have atMost := total rest
    have equal := congrArg List.length same
    rw [List.flatten_cons, List.flatten_cons] at same equal
    rw [List.length_append, List.length_append] at equal
    rcases List.append_inj same (by omega) with ⟨isFirst, isRest⟩
    rw [isFirst, ih isRest]

theorem vprintf_flatMap (strings : BitVec 64 → List UInt8) {pieces : List Piece}
    (ap : List (BitVec 64)) (ordinary : ∀ piece ∈ pieces, piece.Ordinary) :
    vprintf strings (pieces.flatMap Piece.format) (pieces.flatMap Piece.args ++ ap) false =
      (pieces.map Piece.written).flatten := by
  induction pieces with
  | nil => rfl
  | cons piece pieces ih =>
    rw [List.forall_mem_cons] at ordinary
    rw [List.flatMap_cons, List.flatMap_cons, List.append_assoc, Piece.vprintf_format _ ordinary.1,
      ih ordinary.2, List.map_cons, List.flatten_cons]

/-- Every directive shows the value of its argument if and only if no `%l` has
to show more than 32 bits, and the array of `printint` is never overrun. -/
theorem vprintf_exact (strings : BitVec 64 → List UInt8) (pieces : List Piece)
    (ap : List (BitVec 64)) (ordinary : ∀ piece ∈ pieces, piece.Ordinary) :
    ((∃ texts, List.Forall₂ Piece.Renders pieces texts ∧
      vprintf strings (pieces.flatMap Piece.format) (pieces.flatMap Piece.args ++ ap) false =
        texts.flatten) ↔ ∀ piece ∈ pieces, piece.Short) ∧
    ∀ xx base sgn, base = 10 ∨ base = 16 → (printintBuf xx base sgn).length ≤ 16 := by
  refine ⟨?_, fun xx base sgn isBase => ?_⟩
  · rw [vprintf_flatMap strings ap ordinary]
    constructor
    · rintro ⟨texts, renders, same⟩
      have lengths : List.Forall₂ (fun first second => first.length ≤ second.length)
          (pieces.map Piece.written) texts :=
        List.forall₂_map_left_iff.mpr (renders.imp fun _ _ => Piece.length_written_le)
      rw [← eq_of_flatten_eq lengths same, List.forall₂_map_right_iff, List.forall₂_same] at renders
      exact fun piece member => Piece.short_of_renders (renders piece member)
    · intro short
      refine ⟨_, ?_, rfl⟩
      rw [List.forall₂_map_right_iff, List.forall₂_same]
      exact fun piece member => Piece.renders_written (short piece member)
  · have short (x : BitVec 32) : (fill base 32 x.toNat).length ≤ 10 := by
      refine fill_length (k := 9) (Nat.lt_of_lt_of_le x.isLt ?_)
      rcases isBase with rfl | rfl <;> decide
    have whole := short xx
    have negated := short (-xx)
    unfold printintBuf
    split
    · rw [List.length_append, List.length_singleton]
      omega
    · omega

/-- The smallest `int`, and the largest argument of `%l`. -/
theorem vprintf_exact_limits : ∃ texts,
    List.Forall₂ Piece.Renders [.d 0x80000000, .char 10, .l 0xFFFFFFFF] texts ∧
      vprintf (fun _ => []) [37, 100, 10, 37, 108] [0x80000000, 0xFFFFFFFF] false =
        texts.flatten := by
  refine (vprintf_exact _ [.d 0x80000000, .char 10, .l 0xFFFFFFFF] [] ?_).1.mpr ?_
  · simp only [List.forall_mem_cons, Piece.Ordinary]
    exact ⟨trivial, by decide, trivial, fun _ impossible => by cases impossible⟩
  · simp only [List.forall_mem_cons, Piece.Short]
    exact ⟨trivial, trivial, by decide, fun _ impossible => by cases impossible⟩

/-- `printf("%l", 2^32)` writes `0`. -/
theorem vprintf_long_truncates : vprintf (fun _ => []) (Piece.l (2 ^ 32)).format [2 ^ 32] false =
    ['0'.toUInt8] ∧ ¬(Piece.l (2 ^ 32)).Renders ['0'.toUInt8] := by
  refine ⟨by decide, fun renders => ?_⟩
  exact absurd renders.value (by decide)

end Printf
end Xv6
