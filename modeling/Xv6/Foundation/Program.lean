import Mathlib.Algebra.GroupWithZero.Nat

namespace Xv6
namespace Foundation

/-!
# Stateful programs that may stop

Kernel code is written in the monad `EStateM`: a program returns a value and
a state, or stops with an error and the state it had reached.  `Wp` says what
holds of either result.  Taking the condition on errors to be `False` gives
total correctness, and taking it to be `True` gives partial correctness.

The rules for the constructs of the monad are equivalences, so `simp` reduces
a statement about a program to one about its parts; `Wp.mono` puts the
specification of a function in the place of its body.
-/

universe u

section

variable {Stop State α β : Type u}

/-- The program, started in the state, returns with the first condition or
stops with the second.  Without a second condition it returns. -/
def Wp (program : EStateM Stop State α) (state : State) (returns : α → State → Prop)
    (stops : Stop → State → Prop := fun _ _ => False) : Prop :=
  match program.run state with
  | .ok value after => returns value after
  | .error stop after => stops stop after

instance (program : EStateM Stop State α) (state : State) (returns : α → State → Prop)
    (stops : Stop → State → Prop) [∀ value after, Decidable (returns value after)]
    [∀ stop after, Decidable (stops stop after)] : Decidable (Wp program state returns stops) :=
  show Decidable (match program.run state with
    | .ok value after => returns value after
    | .error stop after => stops stop after) from
  match program.run state with
  | .ok value after => inferInstanceAs (Decidable (returns value after))
  | .error stop after => inferInstanceAs (Decidable (stops stop after))

/-- The state in which the program returns or stops. -/
def finalState (program : EStateM Stop State α) (state : State) : State :=
  match program.run state with
  | .ok _ after => after
  | .error _ after => after

variable {state : State} {returns : α → State → Prop} {stops : Stop → State → Prop}
  {returns' : α → State → Prop} {stops' : Stop → State → Prop} {value : α} {after : State}
  {program : EStateM Stop State α}

section

variable (holds : Wp program state returns stops)
  (onReturn : ∀ value after, returns value after → returns' value after)
include holds onReturn

theorem Wp.mono (onStop : ∀ stop after, stops stop after → stops' stop after) :
    Wp program state returns' stops' := by
  unfold Wp at *
  cases result : program.run state with
  | ok value after =>
    rw [result] at holds
    exact onReturn value after holds
  | error stop after =>
    rw [result] at holds
    exact onStop stop after holds

/-- Replace the condition on returning, with the same one on stopping. -/
theorem Wp.imp : Wp program state returns' stops :=
  holds.mono onReturn fun _ _ => id

end

/-- Replace the condition on returning of a program that returns for certain. -/
theorem Wp.total (holds : Wp program state returns)
    (onReturn : ∀ value after, returns value after → returns' value after) :
    Wp program state returns' stops :=
  holds.mono onReturn fun _ _ => False.elim

/-- Two specifications of one program hold together. -/
theorem Wp.and (first : Wp program state returns stops)
    (second : Wp program state returns' stops') :
    Wp program state (fun value after => returns value after ∧ returns' value after)
      fun stop after => stops stop after ∧ stops' stop after := by
  unfold Wp at *
  cases result : program.run state with
  | ok value after | error stop after =>
    rw [result] at first second
    exact ⟨first, second⟩

/-- A program that returns for certain ends in the state it returns in. -/
theorem Wp.finalState (holds : Wp program state returns) :
    ∃ value, returns value (finalState program state) := by
  unfold Wp at holds
  unfold Foundation.finalState
  cases result : program.run state with
  | ok value after =>
    rw [result] at holds
    exact ⟨value, holds⟩
  | error stop after =>
    rw [result] at holds
    exact holds.elim

/-- A program that returns for certain has a result. -/
theorem wp_false_iff :
    Wp program state returns (fun _ _ => False) ↔
      ∃ value after, program.run state = .ok value after ∧ returns value after := by
  unfold Wp
  cases program.run state with
  | ok value after =>
    exact ⟨fun holds => ⟨value, after, rfl, holds⟩, fun ⟨_, _, same, holds⟩ => by cases same; exact holds⟩
  | error stop after => simp

theorem wp_of_run (ran : program.run state = .ok value after) :
    Wp program state returns stops ↔ returns value after := by
  simp [Wp, ran]

/-- What a specification says of a program that has returned. -/
theorem returned (ran : program.run state = .ok value after)
    (holds : Wp program state returns fun _ _ => True) : returns value after :=
  (wp_of_run ran).mp holds

theorem wp_of_stop {stop : Stop} (ran : program.run state = .error stop after) :
    Wp program state returns stops ↔ stops stop after := by
  simp [Wp, ran]

/-- A sequence returns if both parts do. -/
theorem run_bind_eq_ok {program : EStateM Stop State β} {rest : β → EStateM Stop State α} :
    (program >>= rest).run state = .ok value after ↔
      ∃ first middle, program.run state = .ok first middle ∧
        (rest first).run middle = .ok value after := by
  simp only [EStateM.run, bind, EStateM.bind]
  cases program state <;> simp [and_assoc]

@[simp] theorem wp_pure (value : α) :
    Wp (pure value : EStateM Stop State α) state returns stops ↔ returns value state :=
  Iff.rfl

@[simp] theorem wp_throw (stop : Stop) :
    Wp (throw stop : EStateM Stop State α) state returns stops ↔ stops stop state :=
  Iff.rfl

@[simp] theorem wp_get {returns : State → State → Prop} :
    Wp (get : EStateM Stop State State) state returns stops ↔ returns state state :=
  Iff.rfl

@[simp] theorem wp_set (next : State) {returns : PUnit → State → Prop} :
    Wp (set next : EStateM Stop State PUnit) state returns stops ↔ returns ⟨⟩ next :=
  Iff.rfl

@[simp] theorem wp_modify (update : State → State) {returns : PUnit → State → Prop} :
    Wp (modify update : EStateM Stop State PUnit) state returns stops ↔ returns ⟨⟩ (update state) :=
  Iff.rfl

@[simp] theorem wp_bind (program : EStateM Stop State β) (rest : β → EStateM Stop State α) :
    Wp (program >>= rest) state returns stops ↔
      Wp program state (fun value after => Wp (rest value) after returns stops) stops := by
  simp only [Wp, EStateM.run, bind, EStateM.bind]
  cases program state <;> rfl

/-- The rule of sequencing. -/
theorem Wp.seq {program : EStateM Stop State β} {rest : β → EStateM Stop State α}
    {middle : β → State → Prop} (holds : Wp program state middle stops)
    (next : ∀ value after, middle value after → Wp (rest value) after returns stops) :
    Wp (program >>= rest) state returns stops :=
  (wp_bind program rest).mpr (holds.imp next)

@[simp] theorem wp_map (program : EStateM Stop State β) (convert : β → α) :
    Wp (convert <$> program) state returns stops ↔
      Wp program state (fun value after => returns (convert value) after) stops := by
  simp only [Wp, EStateM.run, Functor.map, EStateM.map]
  cases program state <;> rfl

@[simp] theorem wp_discard (program : EStateM Stop State β) {returns : PUnit → State → Prop} :
    Wp (discard program) state returns stops ↔
      Wp program state (fun _ after => returns ⟨⟩ after) stops :=
  wp_map program (Function.const β PUnit.unit)

theorem wp_ite {condition : Prop} [Decidable condition] (first second : EStateM Stop State α) :
    Wp (if condition then first else second) state returns stops ↔
      if condition then Wp first state returns stops else Wp second state returns stops := by
  split <;> rfl

end

attribute [irreducible] Wp

/-! ## Programs that keep an invariant -/

section

variable {Stop State α β : Type u} {invariant : State → Prop} {program : EStateM Stop State β}
  {convert : β → α}

/-- The invariant holds when the program returns if it held before. -/
def Keeps (invariant : State → Prop) (program : EStateM Stop State α) : Prop :=
  ∀ state, invariant state → Wp program state (fun _ after => invariant after) fun _ _ => True

theorem keeps_pure {value : α} : Keeps invariant (pure value : EStateM Stop State α) :=
  fun _ holds => (wp_pure value).mpr holds

theorem keeps_throw {stop : Stop} : Keeps invariant (throw stop : EStateM Stop State α) :=
  fun _ _ => (wp_throw stop).mpr trivial

theorem keeps_get : Keeps invariant (get : EStateM Stop State State) :=
  fun _ holds => wp_get.mpr holds

theorem keeps_modify {update : State → State}
    (kept : ∀ state, invariant state → invariant (update state)) :
    Keeps invariant (modify update : EStateM Stop State PUnit) :=
  fun state holds => (wp_modify update).mpr (kept state holds)

theorem keeps_bind {rest : β → EStateM Stop State α}
    (first : Keeps invariant program) (second : ∀ value, Keeps invariant (rest value)) :
    Keeps invariant (program >>= rest) := by
  intro state holds
  rw [wp_bind]
  exact (first state holds).imp fun value after kept => second value after kept

theorem Keeps.seq {rest : EStateM Stop State α}
    (first : Keeps invariant program) (second : Keeps invariant rest) :
    Keeps invariant (program >>= fun _ => rest) :=
  keeps_bind first fun _ => second

theorem Keeps.returns (kept : Keeps invariant program) :
    Keeps invariant (program >>= fun value => pure (convert value)) :=
  keeps_bind kept fun _ => keeps_pure

theorem keeps_map (kept : Keeps invariant program) : Keeps invariant (convert <$> program) := by
  intro state holds
  rw [wp_map]
  exact kept state holds

end

end Foundation
end Xv6
