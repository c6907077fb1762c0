import Mathlib.Logic.ExistsUnique
import Mathlib.Logic.Function.Basic

namespace Xv6
namespace Foundation

open Function

/-!
# Allocation maps

A pool of units is handed out to places: each place holds at most one unit,
and a map marks the units that are in use.  The allocation is sound if the
marked units of the pool are exactly those that some place holds, and no unit
is held twice.  Two moves change it: a place that holds nothing takes an
unmarked unit, and a place gives its unit back.
-/

universe u v

variable {β : Type u} {κ : Type v}

/-- The map marks the units of the pool that places hold, each in one place. -/
structure Allocation (pool : β → Prop) (used : β → Bool) (holds : κ → Option β) : Prop where
  inside : ∀ place unit, holds place = some unit → pool unit
  marked : ∀ unit, pool unit → (used unit = true ↔ ∃ place, holds place = some unit)
  single : ∀ first second unit, holds first = some unit → holds second = some unit → first = second

namespace Allocation

variable {pool : β → Prop} {used : β → Bool} {holds : κ → Option β}

section

variable (allocation : Allocation pool used holds)
include allocation

/-- A unit of the pool is marked if and only if exactly one place holds it. -/
theorem used_iff_existsUnique {unit : β}
    (inPool : pool unit) : used unit = true ↔ ∃! place, holds place = some unit := by
  rw [allocation.marked unit inPool]
  constructor
  · rintro ⟨place, held⟩
    exact ⟨place, held, fun other alsoHeld => allocation.single other place unit alsoHeld held⟩
  · exact ExistsUnique.exists

theorem used_of_holds {place : κ} {unit : β} (held : holds place = some unit) : used unit = true :=
  (allocation.marked unit (allocation.inside place unit held)).mpr ⟨place, held⟩

/-- An unmarked unit is held nowhere. -/
theorem not_holds_of_unused {unit : β}
    (unused : used unit = false) (place : κ) : holds place ≠ some unit := by
  intro held
  have marked := allocation.used_of_holds held
  rw [unused] at marked
  cases marked

end

section

variable [DecidableEq β] [DecidableEq κ]

/-- A place that holds nothing takes an unmarked unit. -/
theorem assign (allocation : Allocation pool used holds) {place : κ} {unit : β}
    (empty : holds place = none) (inPool : pool unit) (unused : used unit = false) :
    Allocation pool (update used unit true) (update holds place (some unit)) := by
  have nowhere := allocation.not_holds_of_unused unused
  have elsewhere : ∀ other held, update holds place (some unit) other = some held →
      (other = place ∧ held = unit) ∨ (other ≠ place ∧ held ≠ unit ∧ holds other = some held) := by
    intro other held isHeld
    by_cases here : other = place
    · subst other
      rw [update_self] at isHeld
      exact Or.inl ⟨rfl, (Option.some.inj isHeld).symm⟩
    · rw [update_of_ne here] at isHeld
      exact Or.inr ⟨here, fun same => nowhere other (same ▸ isHeld), isHeld⟩
  refine ⟨?_, ?_, ?_⟩
  · intro other held isHeld
    rcases elsewhere other held isHeld with ⟨_, rfl⟩ | ⟨_, _, before⟩
    · exact inPool
    · exact allocation.inside other held before
  · intro other otherInPool
    by_cases same : other = unit
    · subst other
      simp only [update_self, true_iff]
      exact ⟨place, update_self _ _ _⟩
    · rw [update_of_ne same, allocation.marked other otherInPool]
      constructor
      · rintro ⟨spot, held⟩
        have different : spot ≠ place := by
          rintro rfl
          rw [empty] at held
          cases held
        exact ⟨spot, by rw [update_of_ne different]; exact held⟩
      · rintro ⟨spot, held⟩
        rcases elsewhere spot other held with ⟨_, isUnit⟩ | ⟨_, _, before⟩
        · exact absurd isUnit same
        · exact ⟨spot, before⟩
  · intro first second held isFirst isSecond
    rcases elsewhere first held isFirst with ⟨atPlace, isUnit⟩ | ⟨_, notUnit, before⟩ <;>
      rcases elsewhere second held isSecond with ⟨atPlace', isUnit'⟩ | ⟨_, notUnit', before'⟩
    · rw [atPlace, atPlace']
    · exact absurd isUnit notUnit'
    · exact absurd isUnit' notUnit
    · exact allocation.single first second held before before'

/-- A place gives its unit back. -/
theorem release (allocation : Allocation pool used holds) {place : κ} {unit : β}
    (held : holds place = some unit) :
    Allocation pool (update used unit false) (update holds place none) := by
  have remaining : ∀ other kept, update holds place none other = some kept →
      other ≠ place ∧ holds other = some kept := by
    intro other kept isHeld
    by_cases here : other = place
    · subst other
      rw [update_self] at isHeld
      cases isHeld
    · rw [update_of_ne here] at isHeld
      exact ⟨here, isHeld⟩
  refine ⟨?_, ?_, ?_⟩
  · intro other kept isHeld
    exact allocation.inside other kept (remaining other kept isHeld).2
  · intro other otherInPool
    by_cases same : other = unit
    · subst other
      simp only [update_self, Bool.false_eq_true, false_iff, not_exists]
      intro spot isHeld
      rcases remaining spot _ isHeld with ⟨different, before⟩
      exact different (allocation.single spot place _ before held)
    · rw [update_of_ne same, allocation.marked other otherInPool]
      constructor
      · rintro ⟨spot, before⟩
        have different : spot ≠ place := by
          rintro rfl
          rw [held] at before
          exact same (Option.some.inj before).symm
        exact ⟨spot, by rw [update_of_ne different]; exact before⟩
      · rintro ⟨spot, isHeld⟩
        exact ⟨spot, (remaining spot other isHeld).2⟩
  · intro first second kept isFirst isSecond
    exact allocation.single first second kept (remaining first kept isFirst).2
      (remaining second kept isSecond).2

end

end Allocation

end Foundation
end Xv6
