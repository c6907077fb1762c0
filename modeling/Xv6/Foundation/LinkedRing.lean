import Mathlib.Data.List.Nodup
import Mathlib.Logic.Function.Basic

namespace Xv6
namespace Foundation

open Function

/-!
# A doubly linked ring

Nodes with forward and backward pointers, linked in a cycle through a
sentinel that carries no element.  The pointers are two functions on nodes,
and a program changes them one assignment at a time.

`Order` says which list of elements the pointers represent.  The rules below
say what walking along the pointers visits, and what unlinking an element and
inserting it after the sentinel do to the list.
-/

universe u

/-- The pointers of a ring; the sentinel is `none`. -/
structure LinkedRing (ι : Type u) where
  next : Option ι → Option ι
  prev : Option ι → Option ι

namespace LinkedRing

variable {ι : Type u}

/-- The elements met from a node on until the sentinel comes round.  The fuel
bounds the walk on pointers that do not form a ring. -/
def walk (follow : Option ι → Option ι) : (fuel : Nat) → (node : Option ι) → List ι
  | 0, _ => []
  | _ + 1, none => []
  | fuel + 1, some element => element :: walk follow fuel (follow (some element))

/-- From this node on, the pointers lead through the list and back to the
sentinel. -/
def Linked (ring : LinkedRing ι) : Option ι → List ι → Prop
  | node, [] => ring.next node = none ∧ ring.prev none = node
  | node, element :: rest =>
    ring.next node = some element ∧ ring.prev (some element) = node ∧
      Linked ring (some element) rest

/-- The ring represents the list, which starts after the sentinel. -/
structure Order (ring : LinkedRing ι) (elements : List ι) : Prop where
  nodup : elements.Nodup
  linked : ring.Linked none elements

/-- Both pointers of the sentinel point to itself. -/
def empty : LinkedRing ι where
  next := fun _ => none
  prev := fun _ => none

theorem order_empty : (empty : LinkedRing ι).Order [] :=
  ⟨List.nodup_nil, rfl, rfl⟩

variable {ring : LinkedRing ι} {node : Option ι} {element : ι} {elements before : List ι}

theorem walk_next_of_linked
    (linked : ring.Linked node elements) {fuel : Nat} (enough : elements.length < fuel) :
    walk ring.next fuel (ring.next node) = elements := by
  induction elements generalizing node fuel with
  | nil =>
    cases fuel with
    | zero => cases enough
    | succ fuel => rw [linked.1]; rfl
  | cons element rest ih =>
    cases fuel with
    | zero => cases enough
    | succ fuel =>
      rw [linked.1, walk, ih linked.2.2 (by simpa using enough)]

/-- Walking forward visits the elements in order. -/
theorem Order.forward (order : ring.Order elements) {fuel : Nat}
    (enough : elements.length < fuel) : walk ring.next fuel (ring.next none) = elements :=
  walk_next_of_linked order.linked enough

/-- Walking backward from the end of a linked stretch visits it in reverse,
and goes on with what lies before it. -/
theorem walk_prev_of_linked (linked : ring.Linked node elements) (fuel : Nat) :
    walk ring.prev (elements.length + fuel) (ring.prev none) =
      elements.reverse ++ walk ring.prev fuel node := by
  induction elements generalizing node fuel with
  | nil => simp [linked.2]
  | cons element rest ih =>
    have shifted := ih linked.2.2 (fuel + 1)
    rw [walk, linked.2.1] at shifted
    rw [List.length_cons, show rest.length + 1 + fuel = rest.length + (fuel + 1) by omega, shifted,
      List.reverse_cons, List.append_assoc]
    rfl

/-- Walking backward visits the elements in reverse order. -/
theorem Order.backward (order : ring.Order elements) {fuel : Nat}
    (enough : elements.length < fuel) :
    walk ring.prev fuel (ring.prev none) = elements.reverse := by
  have all := walk_prev_of_linked order.linked (fuel - elements.length)
  rw [show elements.length + (fuel - elements.length) = fuel by omega] at all
  cases rest : fuel - elements.length with
  | zero => omega
  | succ more => rw [all, rest, walk, List.append_nil]

/-! ## Stretches of a ring -/

/-- A linked stretch only depends on the pointers along it. -/
theorem Linked.congr {other : LinkedRing ι} (linked : ring.Linked node elements)
    (first : other.next node = ring.next node)
    (nexts : ∀ element ∈ elements, other.next (some element) = ring.next (some element))
    (prevs : ∀ element ∈ elements, other.prev (some element) = ring.prev (some element))
    (last : other.prev none = ring.prev none) : other.Linked node elements := by
  induction elements generalizing node with
  | nil => exact ⟨first.trans linked.1, last.trans linked.2⟩
  | cons element rest ih =>
    refine ⟨first.trans linked.1, (prevs element (by simp)).trans linked.2.1, ?_⟩
    exact ih linked.2.2 (nexts element (by simp))
      (fun later member => nexts later (by simp [member]))
      (fun later member => prevs later (by simp [member]))

theorem Linked.next_eq_head
    (linked : ring.Linked node elements) : ring.next node = elements.head? := by
  cases elements with
  | nil | cons element rest => exact linked.1

/-- What follows an element is linked from it. -/
theorem Linked.after {after : List ι} (linked : ring.Linked node (before ++ element :: after)) :
    ring.Linked (some element) after := by
  induction before generalizing node with
  | nil => exact linked.2.2
  | cons first rest ih => exact ih linked.2.2

/-- Behind an element lies the last element before it, or the starting node. -/
theorem Linked.prev_eq_last {after : List ι} (linked : ring.Linked node (before ++ element :: after)) :
    (before = [] ∧ ring.prev (some element) = node) ∨
      ∃ previous ∈ before, ring.prev (some element) = some previous := by
  induction before generalizing node with
  | nil => exact Or.inl ⟨rfl, linked.2.1⟩
  | cons first rest ih =>
    right
    rcases ih linked.2.2 with ⟨_, isFirst⟩ | ⟨previous, member, isPrevious⟩
    · exact ⟨first, by simp, isFirst⟩
    · exact ⟨previous, by simp [member], isPrevious⟩

/-! ## Unlinking and inserting -/

section

variable [DecidableEq ι]

/-- `node.next.prev = node.prev; node.prev.next = node.next`. -/
def unlink (ring : LinkedRing ι) (node : Option ι) : LinkedRing ι :=
  let ring := { ring with prev := update ring.prev (ring.next node) (ring.prev node) }
  { ring with next := update ring.next (ring.prev node) (ring.next node) }

/-- `node.next = head.next; node.prev = head; head.next.prev = node;
head.next = node`. -/
def pushFront (ring : LinkedRing ι) (node : Option ι) : LinkedRing ι :=
  let ring := { ring with next := update ring.next node (ring.next none) }
  let ring := { ring with prev := update ring.prev node none }
  let ring := { ring with prev := update ring.prev (ring.next none) node }
  { ring with next := update ring.next none node }

/-- An element is bridged between its two neighbours. -/
theorem unlink_of_ne (different : ring.next node ≠ node) :
    ring.unlink node =
      ⟨update ring.next (ring.prev node) (ring.next node),
        update ring.prev (ring.next node) (ring.prev node)⟩ := by
  simp only [unlink, update_of_ne different.symm]

theorem Linked.unlink {after : List ι} (linked : ring.Linked node (before ++ element :: after))
    (nodup : (before ++ element :: after).Nodup)
    (outside : ∀ other ∈ before ++ element :: after, node ≠ some other) :
    (ring.unlink (some element)).Linked node (before ++ after) := by
  have following := linked.after.next_eq_head
  have notSelf : ring.next (some element) ≠ some element := by
    rw [following]
    intro same
    have member := List.mem_of_mem_head? (Option.mem_def.mpr same)
    exact (List.nodup_cons.mp nodup.of_append_right).1 member
  rw [unlink_of_ne notSelf, following]
  induction before generalizing node with
  | nil =>
    have previous := linked.2.1
    have rest := linked.2.2
    cases after with
    | nil =>
      refine ⟨?_, ?_⟩
      · simp [previous]
      · simp [previous]
    | cons head tail =>
      have others : ∀ other ∈ head :: tail, some other ≠ node := fun other member =>
        (outside other (by simp [List.mem_cons.mp member])).symm
      refine ⟨by simp [previous], by simp [previous], rest.2.2.congr ?_ ?_ ?_ ?_⟩
      · simp [previous, others head (by simp)]
      · intro other member
        simp [previous, others other (by simp [member])]
      · intro other member
        have different : other ≠ head := by
          rintro rfl
          exact (List.nodup_cons.mp nodup.of_cons).1 member
        simp [different]
      · simp
  | cons first rest ih =>
    have inner := ih linked.2.2 (List.nodup_cons.mp nodup).2
      (fun other member same => (List.nodup_cons.mp nodup).1 (Option.some.inj same ▸ member))
    refine ⟨?_, ?_, inner⟩
    · have different : node ≠ ring.prev (some element) := by
        rcases linked.prev_eq_last with ⟨impossible, _⟩ | ⟨previous, member, isPrevious⟩
        · cases impossible
        · rw [isPrevious]
          exact outside previous (List.mem_append_left _ member)
      simpa [update_of_ne different] using linked.1
    · have different : some first ≠ after.head? := by
        intro same
        have member := List.mem_of_mem_head? (Option.mem_def.mpr same.symm)
        exact (List.nodup_cons.mp nodup).1 (by simp [member])
      simpa [update_of_ne different] using linked.2.1

theorem Order.unlink {after : List ι} (order : ring.Order (before ++ element :: after)) :
    (ring.unlink (some element)).Order (before ++ after) := by
  refine ⟨?_, order.linked.unlink order.nodup (by simp)⟩
  exact (List.nodup_middle.mp order.nodup).of_cons

/-- Inserting after the sentinel puts an element first. -/
theorem Order.pushFront (order : ring.Order elements)
    (fresh : element ∉ elements) : (ring.pushFront (some element)).Order (element :: elements) := by
  have others : ∀ other ∈ elements, other ≠ element := fun other member same =>
    fresh (same ▸ member)
  refine ⟨List.nodup_cons.mpr ⟨fresh, order.nodup⟩, ?_⟩
  have front := order.linked
  simp only [LinkedRing.pushFront, update_of_ne (Option.some_ne_none element).symm]
  cases elements with
  | nil =>
    rw [front.1]
    refine ⟨by simp, by simp, ?_, ?_⟩
    · simp
    · simp
  | cons head tail =>
    have different := others head (by simp)
    rw [front.1]
    refine ⟨by simp, by simp [different.symm], by simp, by simp, front.2.2.congr ?_ ?_ ?_ ?_⟩
    · simp [different]
    · intro other member
      simp [others other (by simp [member])]
    · intro other member
      have notHead : other ≠ head := by
        rintro rfl
        exact (List.nodup_cons.mp order.nodup).1 member
      simp [others other (by simp [member]), notHead]
    · simp

/-- Unlinking an element and inserting it again moves it to the front. -/
theorem Order.moveToFront (order : ring.Order elements) (member : element ∈ elements) :
    ((ring.unlink (some element)).pushFront (some element)).Order
      (element :: elements.erase element) := by
  rcases List.append_of_mem member with ⟨before, after, rfl⟩
  have absent : element ∉ before ++ after := (List.nodup_cons.mp (List.nodup_middle.mp order.nodup)).1
  have erased : (before ++ element :: after).erase element = before ++ after := by
    rw [List.erase_append_right _ fun inside => absent (List.mem_append_left _ inside),
      List.erase_cons_head]
  rw [erased]
  exact order.unlink.pushFront absent

end

end LinkedRing

end Foundation
end Xv6
