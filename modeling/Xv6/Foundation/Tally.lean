import Mathlib.Algebra.BigOperators.Group.Finset.Basic
import Mathlib.Data.Fintype.Basic

namespace Xv6
namespace Foundation

open Function

/-!
# Tables with one entry changed

A table is a function, and a step of a program changes one entry.
`update_eq_cases` says where an entry of the new table comes from, and
`eq_of_update` what the new table holds.  On a finite type, `sum_update` says
what the change does to a sum over all entries; counting the entries with some
property is the case of a sum of ones and zeros.
-/

universe u v w

/-- An entry of the new table is the new value or an old entry. -/
theorem update_eq_cases {ι : Type u} {α : Type v} [DecidableEq ι] {table : ι → α}
    {index other : ι} {value found : α} (same : update table index value other = found) :
    (other = index ∧ value = found) ∨ (other ≠ index ∧ table other = found) := by
  by_cases changed : other = index
  · subst other
    rw [update_self] at same
    exact Or.inl ⟨rfl, same⟩
  · rw [update_of_ne changed] at same
    exact Or.inr ⟨changed, same⟩

/-- A table is another one but for one entry. -/
theorem eq_of_update {ι : Type u} {α : Type v} [DecidableEq ι] {before after : ι → α} {index : ι}
    {value : α} (changed : after = update before index value) :
    after index = value ∧ ∀ other, other ≠ index → after other = before other := by
  rw [changed]
  exact ⟨update_self .., fun _ different => update_of_ne different ..⟩

variable {ι : Type u} {α : Type v} {M : Type w} [Fintype ι] [DecidableEq ι] [AddCommMonoid M]

/-- Changing one entry trades its old contribution for its new one. -/
theorem sum_update (weight : α → M) (table : ι → α) (index : ι) (value : α) :
    (∑ other, weight (update table index value other)) + weight (table index) =
      (∑ other, weight (table other)) + weight value := by
  have rest : ∑ other ∈ Finset.univ.erase index, weight (update table index value other) =
      ∑ other ∈ Finset.univ.erase index, weight (table other) :=
    Finset.sum_congr rfl fun other member => by
      rw [update_of_ne (Finset.ne_of_mem_erase member)]
  rw [← Finset.add_sum_erase _ _ (Finset.mem_univ index),
    ← Finset.add_sum_erase Finset.univ (fun other => weight (table other)) (Finset.mem_univ index),
    rest, update_self, add_right_comm, add_comm (weight value), add_right_comm]

end Foundation
end Xv6
