import Mathlib.Logic.Relation

namespace Xv6
namespace Foundation

/-!
# Deadlock freedom from an order on locks

Threads hold locks and wait for locks.  A deadlock is a cycle of threads,
each waiting for a lock that the next one holds.  If some relation on locks
has no cycle, and every thread waits only for locks that come after all the
locks it holds, then there is no deadlock.

The relation may change while the threads run.  The other rules say how a
relation without cycles is kept when edges are removed, or when one edge is
added between two locks.
-/

universe u v

section

variable {Lock : Type u} {order larger : Lock → Lock → Prop} {above below : Lock}

/-- The relation has no cycle. -/
def Acyclic (order : Lock → Lock → Prop) : Prop :=
  ∀ lock, ¬ Relation.TransGen order lock lock

theorem Acyclic.mono {smaller : Lock → Lock → Prop} (acyclic : Acyclic order)
    (included : ∀ first second, smaller first second → order first second) : Acyclic smaller :=
  fun lock cycle => acyclic lock (Relation.TransGen.mono included lock lock cycle)

/-- A path in a relation with one extra edge either avoids that edge or
splits at it. -/
theorem transGen_extra_edge (edges : ∀ first second, larger first second →
      order first second ∨ (first = above ∧ second = below))
    {first last : Lock} (path : Relation.TransGen larger first last) :
    Relation.TransGen order first last ∨
      (Relation.ReflTransGen order first above ∧ Relation.ReflTransGen order below last) := by
  induction path with
  | single edge =>
    rcases edges _ _ edge with old | ⟨rfl, rfl⟩
    · exact Or.inl (.single old)
    · exact Or.inr ⟨.refl, .refl⟩
  | tail _ edge ih =>
    rcases edges _ _ edge with old | ⟨rfl, rfl⟩
    · rcases ih with avoided | ⟨before, after⟩
      · exact Or.inl (.tail avoided old)
      · exact Or.inr ⟨before, .tail after old⟩
    · rcases ih with avoided | ⟨before, _⟩
      · exact Or.inr ⟨avoided.to_reflTransGen, .refl⟩
      · exact Or.inr ⟨before, .refl⟩

/-- Adding an edge closes no cycle when its target does not lead to its
source. -/
theorem Acyclic.extra_edge (acyclic : Acyclic order) (unreachable : ¬ Relation.ReflTransGen order below above)
    (edges : ∀ first second, larger first second →
      order first second ∨ (first = above ∧ second = below)) : Acyclic larger := by
  intro lock cycle
  rcases transGen_extra_edge edges cycle with old | ⟨before, after⟩
  · exact acyclic lock old
  · exact unreachable (after.trans before)

/-- In particular when the source has no incoming edge and is not the target. -/
theorem not_reflTransGen_of_source {source : Lock}
    (noIncoming : ∀ lock, ¬ order lock source) (different : below ≠ source) :
    ¬ Relation.ReflTransGen order below source := by
  intro path
  rcases Relation.ReflTransGen.cases_tail path with same | ⟨middle, _, edge⟩
  · exact different same.symm
  · exact noIncoming middle edge

end

section

variable {Thread : Type u} {Lock : Type v} {order : Lock → Lock → Prop}

section

variable (holds : Thread → Lock → Prop) (waits : Thread → Lock → Prop)

/-- The first thread waits for a lock that the second one holds. -/
def WaitsOn (first second : Thread) : Prop :=
  ∃ lock, waits first lock ∧ holds second lock

/-- Some threads wait for each other in a cycle. -/
def Deadlock : Prop :=
  ∃ thread, Relation.TransGen (WaitsOn holds waits) thread thread

end

/-- Along a chain of waiting threads the locks only move forward. -/
theorem chain_ordered {holds waits : Thread → Lock → Prop}
    (ordered : ∀ thread held wanted, holds thread held → waits thread wanted →
      Relation.TransGen order held wanted)
    {first last : Thread} (chain : Relation.TransGen (WaitsOn holds waits) first last) :
    ∃ wanted held, waits first wanted ∧ holds last held ∧
      Relation.ReflTransGen order wanted held := by
  induction chain with
  | single edge =>
    rcases edge with ⟨lock, wanted, held⟩
    exact ⟨lock, lock, wanted, held, .refl⟩
  | tail _ edge ih =>
    rcases ih with ⟨wanted, held, firstWants, middleHolds, path⟩
    rcases edge with ⟨lock, middleWants, lastHolds⟩
    exact ⟨wanted, lock, firstWants, lastHolds,
      path.trans (ordered _ held lock middleHolds middleWants).to_reflTransGen⟩

theorem no_deadlock_of_order {holds waits : Thread → Lock → Prop} (acyclic : Acyclic order)
    (ordered : ∀ thread held wanted, holds thread held → waits thread wanted →
      Relation.TransGen order held wanted) : ¬ Deadlock holds waits := by
  rintro ⟨thread, cycle⟩
  rcases chain_ordered ordered cycle with ⟨wanted, held, wants, holds, path⟩
  exact acyclic wanted (Relation.TransGen.trans_right path (ordered thread held wanted holds wants))

end

end Foundation
end Xv6
