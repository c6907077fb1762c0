import Mathlib.Data.List.Perm.Basic
import Mathlib.Logic.Function.Basic

namespace Xv6
namespace Foundation

open Function

/-!
# Locks and the lists of locks held

A table of locks records for every lock who owns it.  What an owner holds can
also be read off its position in the program, as a list.  The two agree if
they say the same and no list names a lock twice; taking a free lock and
releasing a held one keep them in agreement.
-/

universe u v

variable {Lock : Type u} {Owner : Type v}

/-- The table of owners and the lists of locks held say the same. -/
structure LockTable (owner : Lock → Option Owner) (held : Owner → List Lock) : Prop where
  owned : ∀ lock who, owner lock = some who ↔ lock ∈ held who
  nodup : ∀ who, (held who).Nodup

namespace LockTable

variable {owner : Lock → Option Owner} {held : Owner → List Lock}

/-- A lock has one owner. -/
theorem unique (table : LockTable owner held) {lock : Lock} {one other : Owner}
    (first : lock ∈ held one) (second : lock ∈ held other) : one = other := by
  have same := ((table.owned lock one).mpr first).symm.trans ((table.owned lock other).mpr second)
  exact Option.some.inj same

/-- A free lock is on no list. -/
theorem not_mem (table : LockTable owner held) {lock : Lock} (free : owner lock = none)
    (who : Owner) : lock ∉ held who := by
  intro member
  rw [(table.owned lock who).mpr member] at free
  cases free

variable [DecidableEq Owner] {who : Owner} {lock : Lock} {locks : List Lock}

/-- The order of a list does not matter. -/
theorem reorder (table : LockTable owner held) (same : locks.Perm (held who)) :
    LockTable owner (update held who locks) := by
  refine ⟨fun other one => ?_, fun one => ?_⟩
  · by_cases isWho : one = who
    · subst one
      rw [update_self, same.mem_iff]
      exact table.owned other who
    · rw [update_of_ne isWho]
      exact table.owned other one
  · by_cases isWho : one = who
    · subst one
      rw [update_self]
      exact same.nodup_iff.mpr (table.nodup who)
    · rw [update_of_ne isWho]
      exact table.nodup one

variable [DecidableEq Lock]

theorem acquire (table : LockTable owner held) (free : owner lock = none)
    (more : locks.Perm (lock :: held who)) :
    LockTable (update owner lock (some who)) (update held who locks) := by
  refine ⟨fun other one => ?_, fun one => ?_⟩
  · by_cases isWho : one = who
    · subst one
      rw [update_self, more.mem_iff, List.mem_cons]
      by_cases isLock : other = lock
      · subst other
        simp
      · rw [update_of_ne isLock, table.owned other who]
        simp [isLock]
    · rw [update_of_ne isWho]
      by_cases isLock : other = lock
      · subst other
        rw [update_self]
        constructor
        · intro same
          exact absurd (Option.some.inj same).symm isWho
        · intro member
          exact absurd member (table.not_mem free one)
      · rw [update_of_ne isLock]
        exact table.owned other one
  · by_cases isWho : one = who
    · subst one
      rw [update_self]
      exact more.nodup_iff.mpr (List.nodup_cons.mpr ⟨table.not_mem free who, table.nodup who⟩)
    · rw [update_of_ne isWho]
      exact table.nodup one

theorem release (table : LockTable owner held) (fewer : (held who).Perm (lock :: locks)) :
    LockTable (update owner lock none) (update held who locks) := by
  have parts := List.nodup_cons.mp (fewer.nodup_iff.mp (table.nodup who))
  have mine : lock ∈ held who := fewer.mem_iff.mpr List.mem_cons_self
  refine ⟨fun other one => ?_, fun one => ?_⟩
  · by_cases isLock : other = lock
    · subst other
      rw [update_self]
      constructor
      · intro impossible
        cases impossible
      · intro member
        by_cases isWho : one = who
        · subst one
          rw [update_self] at member
          exact absurd member parts.1
        · rw [update_of_ne isWho] at member
          exact absurd (table.unique member mine) isWho
    · rw [update_of_ne isLock, table.owned other one]
      by_cases isWho : one = who
      · subst one
        rw [update_self, fewer.mem_iff, List.mem_cons]
        simp [isLock]
      · rw [update_of_ne isWho]
  · by_cases isWho : one = who
    · subst one
      rw [update_self]
      exact parts.2
    · rw [update_of_ne isWho]
      exact table.nodup one

end LockTable

end Foundation
end Xv6
