import Mathlib.Computability.Language

namespace Xv6
namespace Grep

open Computability

/-!
# `grep`

The matcher is compared with the language of a pattern, and the loop over the
input with the lines of the whole stream.  A C string is the list of the bytes
before its NUL, so the NUL is the end of the list.
-/

/-! ## The matcher -/

def caret : UInt8 := 94

def dollar : UInt8 := 36

def dot : UInt8 := 46

def star : UInt8 := 42

/-- The loop of `matchstar`, where `here` is `matchhere` at the rest of the pattern. -/
def matchstar (c : UInt8) (here : List UInt8 → Bool) : (text : List UInt8) → Bool
  | [] => here []
  | a :: text => here (a :: text) || ((a == c || c == dot) && matchstar c here text)

/-- `*text!='\0' && (re[0]=='.' || re[0]==*text)`, then the rest of both. -/
def matchone (c : UInt8) (here : List UInt8 → Bool) : (text : List UInt8) → Bool
  | [] => false
  | a :: text => (c == dot || c == a) && here text

def matchhere : (re text : List UInt8) → Bool
  | [], _ => true
  | [c], text => if c = dollar then text.isEmpty else matchone c (matchhere []) text
  | c :: next :: re, text =>
    if next = star then matchstar c (matchhere re) text
    else matchone c (matchhere (next :: re)) text

/-- The loop of `match`, which also looks at the empty rest. -/
def matchanywhere (here : List UInt8 → Bool) : (text : List UInt8) → Bool
  | [] => here []
  | a :: text => here (a :: text) || matchanywhere here text

/-- `match` of the source. -/
def matchtext (re text : List UInt8) : Bool :=
  if re.head? = some caret then matchhere re.tail text else matchanywhere (matchhere re) text

/-! ## The language of a pattern -/

/-- One byte that `c` stands for. -/
def atom (c : UInt8) : Language UInt8 := {w | ∃ a, w = [a] ∧ (c = dot ∨ c = a)}

def language : (re : List UInt8) → Language UInt8
  | [] => 1
  | [c] => if c = dollar then 1 else atom c
  | c :: next :: re =>
    if next = star then (atom c)∗ * language re else atom c * language (next :: re)

/-- The pattern ends in a `$` that no `*` follows. -/
def endRequired : (re : List UInt8) → Prop
  | [] => False
  | [c] => c = dollar
  | _ :: next :: re => if next = star then endRequired re else endRequired (next :: re)

/-- The text starts with a word of the language, and its rest satisfies `Rest`. -/
def Starts (words : Language UInt8) (Rest : List UInt8 → Prop) (text : List UInt8) : Prop :=
  ∃ word rest, text = word ++ rest ∧ word ∈ words ∧ Rest rest

variable {c : UInt8} {here : List UInt8 → Bool} {words others : Language UInt8}
  {Rest : List UInt8 → Prop} {text : List UInt8}

theorem starts_one : Starts 1 Rest text ↔ Rest text := by
  simp [Starts, Language.mem_one]

theorem starts_mul : Starts (words * others) Rest text ↔ Starts words (Starts others Rest) text := by
  constructor
  · rintro ⟨_, rest, rfl, ⟨first, begins, second, continues, rfl⟩, holds⟩
    exact ⟨first, second ++ rest, List.append_assoc .., begins, second, rest, rfl, continues, holds⟩
  · rintro ⟨first, _, rfl, begins, second, rest, rfl, continues, holds⟩
    exact ⟨first ++ second, rest, (List.append_assoc ..).symm,
      Language.append_mem_mul begins continues, holds⟩

theorem starts_add :
    Starts (words + others) Rest text ↔ Starts words Rest text ∨ Starts others Rest text := by
  simp only [Starts, Language.mem_add]
  grind

theorem not_starts_atom_nil : ¬Starts (atom c) Rest [] := by
  rintro ⟨_, _, same, ⟨_, rfl, _⟩, _⟩
  exact List.cons_ne_nil _ _ same.symm

theorem starts_atom_cons {a : UInt8} :
    Starts (atom c) Rest (a :: text) ↔ (c = dot ∨ c = a) ∧ Rest text := by
  constructor
  · rintro ⟨_, _, same, ⟨_, rfl, stands⟩, holds⟩
    cases same
    exact ⟨stands, holds⟩
  · rintro ⟨stands, holds⟩
    exact ⟨[a], text, rfl, ⟨a, rfl, stands⟩, holds⟩

theorem starts_star :
    Starts (atom c)∗ Rest text ↔ Rest text ∨ Starts (atom c) (Starts (atom c)∗ Rest) text := by
  conv_lhs => rw [← Language.one_add_self_mul_kstar_eq_kstar, starts_add, starts_one, starts_mul]

section

variable (means : ∀ text, here text ↔ Rest text)
include means

theorem matchone_iff : matchone c here text ↔ Starts (atom c) Rest text := by
  cases text with
  | nil => simp [matchone, not_starts_atom_nil]
  | cons a text => simp [matchone, starts_atom_cons, means]

theorem matchstar_iff : matchstar c here text ↔ Starts (atom c)∗ Rest text := by
  induction text with
  | nil => simp [matchstar, starts_star, not_starts_atom_nil, means]
  | cons a text ih =>
    rw [starts_star, starts_atom_cons, ← ih]
    have same : (a = c ∨ c = dot) ↔ (c = dot ∨ c = a) := or_comm.trans (or_congr_right eq_comm)
    simp [matchstar, means, same]

theorem matchanywhere_iff :
    matchanywhere here text ↔ ∃ before rest, text = before ++ rest ∧ Rest rest := by
  induction text with
  | nil => simp [matchanywhere, means]
  | cons a text ih =>
    rw [matchanywhere, Bool.or_eq_true, means, ih]
    constructor
    · rintro (now | ⟨before, rest, rfl, later⟩)
      · exact ⟨[], _, rfl, now⟩
      · exact ⟨a :: before, rest, rfl, later⟩
    · rintro ⟨before, rest, same, holds⟩
      cases before with
      | nil =>
        cases same
        exact .inl holds
      | cons b before =>
        cases same
        exact .inr ⟨before, rest, rfl, holds⟩

end

theorem matchhere_iff (re text : List UInt8) :
    matchhere re text ↔ Starts (language re) (fun rest => endRequired re → rest = []) text := by
  induction re using language.induct generalizing text with
  | case1 | case2 => simp [matchhere, language, endRequired, starts_one]
  | case3 c other =>
    simp only [matchhere, language, endRequired, if_neg other]
    exact matchone_iff fun _ => by simp [other]
  | case4 c re ih =>
    simp only [matchhere, language, endRequired, if_pos]
    rw [starts_mul]
    exact matchstar_iff ih
  | case5 c next re other ih =>
    simp only [matchhere, language, endRequired, if_neg other]
    rw [starts_mul]
    exact matchone_iff ih

/-- A pattern matches where a word of its language stands: at the start after
a `^`, anywhere otherwise, and with nothing behind it if it ends in `$`. -/
theorem matchtext_iff (re text : List UInt8) :
    matchtext re text ↔
      ∃ before word rest, text = before ++ (word ++ rest) ∧
        if re.head? = some caret then
          before = [] ∧ word ∈ language re.tail ∧ (endRequired re.tail → rest = [])
        else word ∈ language re ∧ (endRequired re → rest = []) := by
  by_cases anchored : re.head? = some caret
  · simp only [matchtext, if_pos anchored, matchhere_iff, Starts]
    constructor
    · rintro ⟨word, rest, same, holds⟩
      exact ⟨[], word, rest, same, rfl, holds⟩
    · rintro ⟨_, word, rest, same, rfl, holds⟩
      exact ⟨word, rest, same, holds⟩
  · simp only [matchtext, if_neg anchored, matchanywhere_iff (matchhere_iff re), Starts]
    constructor
    · rintro ⟨before, _, rfl, word, rest, rfl, holds⟩
      exact ⟨before, word, rest, rfl, holds⟩
    · rintro ⟨before, word, rest, same, holds⟩
      exact ⟨before, word ++ rest, same, word, rest, rfl, holds⟩

/-! ## The loop over the input -/

def newline : UInt8 := 10

/-- `strchr`, with what stands before the byte that it finds, and what follows. -/
def strchr (c : UInt8) : (s : List UInt8) → Option (List UInt8 × List UInt8)
  | [] => none
  | a :: s =>
    if a = 0 then none
    else if a = c then some ([], s)
    else (strchr c s).map fun found => (a :: found.1, found.2)

theorem strchr_eq_some {s line rest : List UInt8} (found : strchr c s = some (line, rest)) :
    s = line ++ c :: rest ∧ c ∉ line := by
  fun_induction strchr c s generalizing line with
  | case1 | case2 => cases found
  | case3 =>
    cases found
    simp
  | case4 a s _ other ih =>
    rcases Option.map_eq_some_iff.mp found with ⟨⟨before, after⟩, isFound, same⟩
    cases same
    rcases ih isFound with ⟨rfl, absent⟩
    exact ⟨rfl, List.not_mem_cons_of_ne_of_not_mem (Ne.symm other) absent⟩

theorem not_mem_of_strchr {s : List UInt8} (missing : strchr c s = none) (noNul : 0 ∉ s) :
    c ∉ s := by
  fun_induction strchr c s with
  | case1 => exact List.not_mem_nil
  | case2 s => exact absurd List.mem_cons_self noNul
  | case3 => cases missing
  | case4 a s _ other ih =>
    apply List.not_mem_cons_of_ne_of_not_mem (Ne.symm other)
    exact ih (Option.map_eq_none_iff.mp missing) fun isNul => noNul (.tail a isNul)

/-- The inner loop of `grep`: what it writes of the text, and the unfinished
line that it leaves. -/
def scan (pattern text : List UInt8) : List UInt8 × List UInt8 :=
  match _found : strchr newline text with
  | none => ([], text)
  | some (line, rest) =>
    let (written, tail) := scan pattern rest
    (if matchtext pattern line then line ++ newline :: written else written, tail)
termination_by text.length
decreasing_by
  rw [(strchr_eq_some _found).1, List.length_append, List.length_cons]
  omega

/-- `grep`, with the first bytes of `buf` that are in use and what is still to
read.  A call of `read` returns one byte or more, up to the size that is
requested, unless nothing is requested or left. -/
def grep (pattern : List UInt8) (sizes : Nat → Nat) (buf stream : List UInt8) : List UInt8 :=
  let n := min (min (sizes 0 + 1) (1024 - buf.length - 1)) stream.length
  if n > 0 then
    let (written, tail) := scan pattern (buf ++ stream.take n)
    written ++ grep pattern (fun i => sizes (i + 1)) tail (stream.drop n)
  else []
termination_by stream.length
decreasing_by
  rw [List.length_drop]
  omega

/-- The lines of the stream that end in a newline and match. -/
def selected (pattern stream : List UInt8) : List UInt8 :=
  ((stream.splitOn newline).dropLast.filter (matchtext pattern)).flatMap (· ++ [newline])

variable {pattern line rest : List UInt8}

theorem selected_line (isLine : newline ∉ line) :
    selected pattern (line ++ newline :: rest) =
      (if matchtext pattern line then line ++ [newline] else []) ++ selected pattern rest := by
  rw [selected, List.splitOn_append_cons_self_of_not_mem isLine,
    List.dropLast_cons_of_ne_nil (List.splitOn_ne_nil _ _), List.filter_cons]
  split
  · exact List.flatMap_cons
  · rfl

/-- The scan writes the lines that end in the text, and what it leaves is part
of a line. -/
theorem scan_spec (pattern : List UInt8) (noNul : 0 ∉ text) :
    newline ∉ (scan pattern text).2 ∧ (scan pattern text).2 <:+ text ∧ ∀ more,
      selected pattern (text ++ more) =
        (scan pattern text).1 ++ selected pattern ((scan pattern text).2 ++ more) ∧
      ((scan pattern text).2 ++ more).splitOn newline ⊆ (text ++ more).splitOn newline := by
  fun_induction scan pattern text with
  | case1 text missing =>
    exact ⟨not_mem_of_strchr missing noNul, List.suffix_rfl, fun _ => ⟨rfl, List.Subset.refl _⟩⟩
  | case2 text line rest found written tail scanned ih =>
    rcases strchr_eq_some found with ⟨rfl, isLine⟩
    rw [scanned] at ih
    rcases ih fun isNul => noNul (by simp [isNul]) with ⟨isPart, suffix, spec⟩
    refine ⟨isPart, (suffix.trans (List.suffix_cons _ _)).trans (List.suffix_append _ _), ?_⟩
    intro more
    rw [List.append_assoc, List.cons_append, selected_line isLine, (spec more).1,
      List.splitOn_append_cons_self_of_not_mem isLine]
    refine ⟨?_, List.subset_cons_of_subset _ (spec more).2⟩
    split
    · simp
    · rfl

theorem exists_longer (isPart : newline ∉ line) (more : List UInt8) :
    ∃ piece ∈ (line ++ more).splitOn newline, line.length ≤ piece.length := by
  by_cases ends : newline ∈ more
  · rcases List.eq_append_cons_of_mem ends with ⟨first, later, rfl, absent⟩
    refine ⟨line ++ first, ?_, by simp⟩
    rw [← List.append_assoc, List.splitOn_append_cons_self_of_not_mem (by simp [isPart, absent])]
    exact List.mem_cons_self
  · rw [List.splitOn_eq_singleton (by simp [isPart, ends])]
    exact ⟨_, List.mem_singleton_self _, by simp⟩

theorem grep_eq_selected (sizes : Nat → Nat) (buf stream : List UInt8) (isPart : newline ∉ buf)
    (noNul : 0 ∉ buf ++ stream)
    (short : ∀ piece ∈ (buf ++ stream).splitOn newline, piece.length < 1023) :
    grep pattern sizes buf stream = selected pattern (buf ++ stream) := by
  fun_induction grep pattern sizes buf stream with
  | case1 sizes buf stream n more written tail scanned ih =>
    have whole : buf ++ stream = buf ++ stream.take n ++ stream.drop n := by
      rw [List.append_assoc, List.take_append_drop]
    rw [whole] at noNul short ⊢
    rw [List.mem_append, not_or] at noNul
    have spec := scan_spec pattern noNul.1
    rw [scanned] at spec
    rcases spec with ⟨stillPart, suffix, spec⟩
    rw [(spec _).1, ih stillPart ?_ fun piece isPiece => short piece ((spec _).2 isPiece)]
    rw [List.mem_append, not_or]
    exact ⟨fun isNul => noNul.1 (suffix.subset isNul), noNul.2⟩
  | case2 sizes buf stream n nothing =>
    rcases exists_longer isPart stream with ⟨piece, isPiece, longer⟩
    have below := short piece isPiece
    have atEnd : stream = [] := List.length_eq_zero_iff.mp (by omega)
    rw [atEnd, List.append_nil, selected, List.splitOn_eq_singleton isPart]
    rfl

/-- However the stream arrives, `grep` writes the lines that match, each whole
and once. -/
theorem grep_writes_lines (pattern stream : List UInt8) (sizes : Nat → Nat) (noNul : 0 ∉ stream)
    (short : ∀ piece ∈ stream.splitOn newline, piece.length < 1023) :
    grep pattern sizes [] stream = selected pattern stream :=
  grep_eq_selected sizes [] stream List.not_mem_nil noNul short

/-- `"ab\nc\nb"` arrives in reads of two bytes. -/
theorem grep_writes_lines_split :
    grep [98] (fun _ => 1) [] [97, 98, 10, 99, 10, 98] = [97, 98, 10] :=
  (grep_writes_lines [98] _ (fun _ => 1) (by decide) (by decide)).trans (by decide)

end Grep
end Xv6
