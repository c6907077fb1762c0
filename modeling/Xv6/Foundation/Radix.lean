import Mathlib.Data.List.Induction
import Mathlib.Logic.Function.Basic

namespace Xv6
namespace Foundation

open Function

/-!
# Radix trees in a memory of pages

A page is a table of entries, and an entry may point to another page.  The
tables of a radix tree are found from its root by following paths of indices.
As long as different paths of bounded length lead to different pages, a write to
one table is seen on one path only.

Two kinds of writes are treated: one to a table of the last level, which changes
no path, and one that hangs a new page without pointers into a free place.

What such a tree stands for is a partial map.  The last section has the two
operations on a range of its keys, as they are computed key by key.
-/

universe u v w

section

variable {π : Type u} {ι : Type v} {ε : Type w} (child : ε → Option π)

/-- The page at the end of a path. -/
def follow (memory : π → ι → ε) : π → List ι → Option π
  | page, [] => some page
  | page, index :: rest => (child (memory page index)).bind fun next => follow memory next rest

/-- Different paths up to the depth lead to different pages. -/
def Separate (memory : π → ι → ε) (root : π) (depth : Nat) : Prop :=
  ∀ first second page, first.length ≤ depth → second.length ≤ depth →
    follow child memory root first = some page → follow child memory root second = some page →
    first = second

variable {child} {memory changed : π → ι → ε} {root page fresh : π} {depth : Nat} {path : List ι}

theorem follow_concat (memory : π → ι → ε) (root : π) (path : List ι) (index : ι) :
    follow child memory root (path ++ [index]) =
      (follow child memory root path).bind fun page => child (memory page index) := by
  induction path generalizing root with
  | nil =>
    rw [List.nil_append, follow, follow, Option.bind_some]
    exact Option.bind_fun_some _
  | cons first rest ih =>
    rw [List.cons_append, follow, follow, Option.bind_assoc]
    congr 1
    funext next
    exact ih next

/-- A path is as before if the pointers of all pages on the way are. -/
theorem follow_congr
    (same : ∀ path page, path.length < depth → follow child memory root path = some page →
      ∀ index, child (changed page index) = child (memory page index))
    (short : path.length ≤ depth) :
    follow child changed root path = follow child memory root path := by
  induction path using List.reverseRecOn with
  | nil => rfl
  | append_singleton init index ih =>
    rw [List.length_append, List.length_singleton] at short
    rw [follow_concat, follow_concat, ih (by omega)]
    cases isPage : follow child memory root init with
    | none => rfl
    | some page => exact same init page (by omega) isPage index

/-- A page that is not in the tree is written. -/
theorem follow_of_outside
    (outside : ∀ path, path.length ≤ depth → follow child memory root path ≠ some fresh)
    (others : ∀ page, page ≠ fresh → changed page = memory page) (short : path.length ≤ depth) :
    follow child changed root path = follow child memory root path := by
  apply follow_congr _ short
  intro path page isShort isPage index
  have different : page ≠ fresh := by
    intro same
    rw [same] at isPage
    exact outside path (Nat.le_of_lt isShort) isPage
  rw [others page different]

/-- A table of the last level is written. -/
theorem follow_of_last (separate : Separate child memory root depth) {place : List ι}
    (last : place.length = depth) (isPage : follow child memory root place = some page)
    (others : ∀ other, other ≠ page → changed other = memory other)
    (short : path.length ≤ depth) :
    follow child changed root path = follow child memory root path := by
  apply follow_congr _ short
  intro path other isShort isOther index
  have different : other ≠ page := by
    intro same
    rw [same] at isOther
    have equal := separate path place page (Nat.le_of_lt isShort) (Nat.le_of_eq last) isOther isPage
    rw [equal] at isShort
    omega
  rw [others other different]

/-- A new page without pointers is hung into the tree. -/
structure Grafted (child : ε → Option π) (memory changed : π → ι → ε) (root : π) (depth : Nat)
    (place : List ι) (index : ι) (page fresh : π) : Prop where
  isPage : follow child memory root place = some page
  inside : place.length < depth
  vacant : child (memory page index) = none
  outside : ∀ path, path.length ≤ depth → follow child memory root path ≠ some fresh
  pointer : child (changed page index) = some fresh
  siblings : ∀ other, other ≠ index → changed page other = memory page other
  empty : ∀ index, child (changed fresh index) = none
  others : ∀ other, other ≠ page → other ≠ fresh → changed other = memory other

namespace Grafted

variable {place : List ι} {index : ι}

/-- It is found in its place, and everything else where it was. -/
theorem follow_eq [DecidableEq ι]
    (grafted : Grafted child memory changed root depth place index page fresh)
    (separate : Separate child memory root depth) (short : path.length ≤ depth) :
    follow child changed root path =
      if path = place ++ [index] then some fresh else follow child memory root path := by
  induction path using List.reverseRecOn with
  | nil =>
    rw [if_neg]
    · rfl
    · intro same
      have lengths := congrArg List.length same
      simp at lengths
  | append_singleton init last ih =>
    rw [List.length_append, List.length_singleton] at short
    rw [follow_concat, ih (by omega), follow_concat]
    by_cases below : init = place ++ [index]
    · have before : follow child memory root init = none := by
        rw [below, follow_concat, grafted.isPage]
        exact grafted.vacant
      have notHere : init ++ [last] ≠ place ++ [index] := by
        intro same
        rw [below] at same
        have lengths := congrArg List.length same
        simp at lengths
      rw [if_pos below, if_neg notHere, before]
      exact grafted.empty last
    · rw [if_neg below]
      cases isInit : follow child memory root init with
      | none =>
        have notHere : init ++ [last] ≠ place ++ [index] := by
          intro same
          rw [(List.append_inj' same rfl).1, grafted.isPage] at isInit
          cases isInit
        rw [if_neg notHere]
        rfl
      | some other =>
        have different : other ≠ fresh := by
          intro same
          rw [same] at isInit
          exact grafted.outside init (by omega) isInit
        by_cases isPlace : other = page
        · have here : init = place := by
            rw [isPlace] at isInit
            have inside := grafted.inside
            exact separate init place page (by omega) (by omega) isInit grafted.isPage
          by_cases isIndex : last = index
          · rw [here, isIndex, if_pos rfl, isPlace]
            exact grafted.pointer
          · have notHere : init ++ [last] ≠ place ++ [index] := by
              intro same
              exact isIndex (List.singleton_inj.mp (List.append_inj' same rfl).2)
            rw [if_neg notHere, isPlace]
            exact congrArg child (grafted.siblings last isIndex)
        · have notHere : init ++ [last] ≠ place ++ [index] := by
            intro same
            rw [(List.append_inj' same rfl).1, grafted.isPage] at isInit
            exact isPlace (Option.some.inj isInit).symm
          rw [if_neg notHere]
          exact congrArg child (congrFun (grafted.others other isPlace different) last)

/-- The pages are still different. -/
theorem separate [DecidableEq ι]
    (grafted : Grafted child memory changed root depth place index page fresh)
    (separate : Separate child memory root depth) : Separate child changed root depth := by
  intro first second page' firstShort secondShort isFirst isSecond
  rw [grafted.follow_eq separate firstShort] at isFirst
  rw [grafted.follow_eq separate secondShort] at isSecond
  split at isFirst
  · rename_i firstHere
    split at isSecond
    · rename_i secondHere
      rw [firstHere, secondHere]
    · cases isFirst
      exact absurd isSecond (grafted.outside second secondShort)
  · split at isSecond
    · cases isSecond
      exact absurd isFirst (grafted.outside first firstShort)
    · exact separate first second page' firstShort secondShort isFirst isSecond

end Grafted

end

/-! ## Ranges of a partial map -/

section

variable {α : Type u}

section

variable (map : Nat → Option α) (first : Nat) (count : Nat)

/-- The keys of the range get values. -/
def assign (value : Nat → α) (key : Nat) : Option α :=
  if first ≤ key ∧ key < first + count then some (value (key - first)) else map key

/-- The keys of the range lose their values. -/
def erase (key : Nat) : Option α :=
  if first ≤ key ∧ key < first + count then none else map key

end

variable {map : Nat → Option α} {first count : Nat} {value : Nat → α}

theorem assign_zero : assign map first 0 value = map := by
  funext key
  exact if_neg (by omega)

theorem erase_zero : erase map first 0 = map := by
  funext key
  exact if_neg (by omega)

theorem assign_succ : assign map first (count + 1) value =
    assign (update map first (some (value 0))) (first + 1) count fun i => value (i + 1) := by
  funext key
  rcases Nat.lt_trichotomy key first with below | rfl | above
  · rw [assign, if_neg (by omega), assign, if_neg (by omega), update_of_ne (Nat.ne_of_lt below)]
  · rw [assign, if_pos (by omega), assign, if_neg (by omega), update_self, Nat.sub_self]
  · rw [assign, assign, update_of_ne (Nat.ne_of_gt above)]
    have index : key - (first + 1) + 1 = key - first := by omega
    have range : (first ≤ key ∧ key < first + (count + 1)) ↔
        (first + 1 ≤ key ∧ key < first + 1 + count) := by omega
    rw [index, if_congr range rfl rfl]

theorem erase_succ : erase map first (count + 1) =
    erase (update map first none) (first + 1) count := by
  funext key
  rcases Nat.lt_trichotomy key first with below | rfl | above
  · rw [erase, if_neg (by omega), erase, if_neg (by omega), update_of_ne (Nat.ne_of_lt below)]
  · rw [erase, if_pos (by omega), erase, if_neg (by omega), update_self]
  · rw [erase, erase, update_of_ne (Nat.ne_of_gt above)]
    have range : (first ≤ key ∧ key < first + (count + 1)) ↔
        (first + 1 ≤ key ∧ key < first + 1 + count) := by omega
    rw [if_congr range rfl rfl]

theorem map_assign {β : Type v} (map : Nat → Option α) (first count : Nat) (value : Nat → α)
    (convert : α → β) :
    (fun key => (assign map first count value key).map convert) =
      assign (fun key => (map key).map convert) first count fun i => convert (value i) := by
  funext key
  rw [assign, assign, apply_ite (Option.map convert)]
  rfl

theorem map_erase {β : Type v} (map : Nat → Option α) (first count : Nat) (convert : α → β) :
    (fun key => (erase map first count key).map convert) =
      erase (fun key => (map key).map convert) first count := by
  funext key
  rw [erase, erase, apply_ite (Option.map convert)]
  rfl

/-- What was added to unused keys is removed. -/
theorem erase_assign (unused : ∀ i, i < count → map (first + i) = none) :
    erase (assign map first count value) first count = map := by
  funext key
  rw [erase]
  split
  · rename_i range
    have key_eq : first + (key - first) = key := by omega
    have none := unused (key - first) (by omega)
    rw [key_eq] at none
    exact none.symm
  · rename_i notRange
    rw [assign, if_neg notRange]

end

end Foundation
end Xv6
