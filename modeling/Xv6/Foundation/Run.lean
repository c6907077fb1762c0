import Mathlib.Algebra.GroupWithZero.Nat

namespace Xv6
namespace Foundation

/-!
# Schedules of guarded transition systems

A kernel is exercised by a schedule: a finite list of actions, each attempted
by somebody.  An attempted action may be impossible for now because its
caller has to sleep or because the caller's protocol forbids it, it may stop
the machine for good, or it may lead to a next state.  The three cases are
kept apart because safety statements differ in which of them they exclude.

The rules below package the only induction over schedules that the rest of
the development needs: what every single step preserves under a side
condition holds in every state reached by a schedule whose steps all meet it.
-/

universe u v w

/-- The result of attempting one action, or a whole schedule. -/
inductive Outcome (Stop : Type u) (State : Type v) where
  | blocked
  | halted (stop : Stop)
  | next (state : State)

/-- A schedule of two processes names them by literals. -/
instance neZeroTwo : NeZero 2 := ⟨by decide⟩

namespace Outcome

variable {Stop : Type u} {State : Type v} {outcome : Outcome Stop State} {rest : State → Outcome Stop State}

/-- Whether there is a next state can be checked by running. -/
instance (outcome : Outcome Stop State) : Decidable (∃ state, outcome = .next state) :=
  match outcome with
  | .blocked => .isFalse (by simp)
  | .halted _ => .isFalse (by simp)
  | .next state => .isTrue ⟨state, rfl⟩

/-- So can what holds in it. -/
instance (outcome : Outcome Stop State) (property : State → Prop) [DecidablePred property] :
    Decidable (∃ state, outcome = .next state ∧ property state) :=
  match outcome with
  | .blocked => .isFalse (by simp)
  | .halted _ => .isFalse (by simp)
  | .next state => decidable_of_iff (property state) (by simp)

instance [DecidableEq Stop] (outcome : Outcome Stop State) (stop : Stop) :
    Decidable (outcome = .halted stop) :=
  match outcome with
  | .blocked => .isFalse (by simp)
  | .halted other => decidable_of_iff (other = stop) (by simp)
  | .next _ => .isFalse (by simp)

/-- Continue with the next state, if there is one. -/
def andThen (outcome : Outcome Stop State) (rest : State → Outcome Stop State) :
    Outcome Stop State :=
  match outcome with
  | .blocked => .blocked
  | .halted stop => .halted stop
  | .next state => rest state

theorem andThen_eq_next {final : State} :
    outcome.andThen rest = .next final ↔
      ∃ middle, outcome = .next middle ∧ rest middle = .next final := by
  cases outcome <;> simp [andThen]

theorem andThen_eq_halted {stop : Stop} :
    outcome.andThen rest = .halted stop ↔
      outcome = .halted stop ∨ ∃ middle, outcome = .next middle ∧ rest middle = .halted stop := by
  cases outcome <;> simp [andThen]

/-- A run that goes through ends in a state with all that holds wherever it
can end. -/
theorem next_and {property : State → Prop}
    (ran : ∃ state, outcome = .next state) (holds : ∀ state, outcome = .next state → property state) :
    ∃ state, outcome = .next state ∧ property state := by
  rcases ran with ⟨state, reached⟩
  exact ⟨state, reached, holds state reached⟩

end Outcome

section

variable {Stop : Type u} {State : Type v} {condition : Prop} [Decidable condition]
  {outcome : Outcome Stop State} {state : State}

/-- A step with a guard was taken. -/
theorem guard_eq_next :
    (if condition then outcome else .blocked) = .next state ↔
      condition ∧ outcome = .next state := by
  by_cases holds : condition <;> simp [holds]

/-- A step that stops the machine under a condition was taken. -/
theorem check_eq_next {stop : Stop} :
    (if condition then .halted stop else outcome) = .next state ↔
      ¬ condition ∧ outcome = .next state := by
  by_cases holds : condition <;> simp [holds]

end

section

variable {Stop : Type u} {State : Type v} {Action : Type w}

/-- Attempt the actions of a schedule one after another. -/
def exec (step : State → Action → Outcome Stop State) : State → List Action → Outcome Stop State
  | state, [] => .next state
  | state, action :: rest => (step state action).andThen fun next => exec step next rest

variable {step : State → Action → Outcome Stop State} {state middle final : State} {first second : List Action}

theorem exec_cons (state : State) (action : Action) (rest : List Action) :
    exec step state (action :: rest) =
      (step state action).andThen fun next => exec step next rest := rfl

theorem exec_append (state : State) (first second : List Action) :
    exec step state (first ++ second) =
      (exec step state first).andThen fun middle => exec step middle second := by
  induction first generalizing state with
  | nil => rfl
  | cons action rest ih =>
    rw [List.cons_append, exec_cons, exec_cons]
    cases step state action with
    | blocked => rfl
    | halted stop => rfl
    | next middle => exact ih middle

theorem exec_append_eq_next :
    exec step state (first ++ second) = .next final ↔
      ∃ middle, exec step state first = .next middle ∧ exec step middle second = .next final := by
  rw [exec_append, Outcome.andThen_eq_next]

theorem exec_singleton (state : State) (action : Action) :
    exec step state [action] = step state action := by
  rw [exec_cons]
  cases step state action <;> rfl

/-- One more action after a reached state. -/
theorem exec_snoc {before : List Action} (action : Action)
    (reached : exec step state before = .next middle) :
    exec step state (before ++ [action]) = step middle action := by
  rw [exec_append, reached]
  exact exec_singleton middle action

variable {schedule : List Action} {condition : State → Action → Prop}

/-- A halted schedule halted at one of its actions, in a state it had reached. -/
theorem exec_eq_halted {stop : Stop} (halted : exec step state schedule = .halted stop) :
    ∃ before action after middle, schedule = before ++ action :: after ∧
      exec step state before = .next middle ∧ step middle action = .halted stop := by
  induction schedule generalizing state with
  | nil => cases halted
  | cons action rest ih =>
    rcases Outcome.andThen_eq_halted.mp halted with stopped | ⟨next, stepped, continued⟩
    · exact ⟨[], action, rest, state, rfl, rfl, stopped⟩
    · rcases ih continued with ⟨before, last, after, middle, split, reached, stopped⟩
      refine ⟨action :: before, last, after, middle, by rw [split]; rfl, ?_, stopped⟩
      rw [exec_cons, stepped]
      exact reached

/-- Every action of the schedule is attempted in a state that meets the side
condition.  Once the schedule is blocked or halted, nothing more is asked. -/
def Meets (step : State → Action → Outcome Stop State)
    (condition : State → Action → Prop) : State → List Action → Prop
  | _, [] => True
  | state, action :: rest =>
    condition state action ∧ ∀ next, step state action = .next next → Meets step condition next rest

/-- A decidable side condition can be checked along a concrete schedule. -/
instance Meets.decidable (condition : State → Action → Prop)
    [decide : ∀ state action, Decidable (condition state action)] (state : State) :
    (schedule : List Action) → Decidable (Meets step condition state schedule)
  | [] => .isTrue trivial
  | action :: rest =>
    match stepped : step state action with
    | .next next =>
      have := Meets.decidable condition next rest
      decidable_of_iff (condition state action ∧ Meets step condition next rest)
        (by simp [Meets, stepped])
    | .blocked => decidable_of_iff (condition state action) (by simp [Meets, stepped])
    | .halted _ => decidable_of_iff (condition state action) (by simp [Meets, stepped])

theorem Meets.mono {weaker : State → Action → Prop} (meets : Meets step condition state schedule)
    (implied : ∀ state action, condition state action → weaker state action) :
    Meets step weaker state schedule := by
  induction schedule generalizing state with
  | nil => trivial
  | cons action rest ih =>
    exact ⟨implied state action meets.1, fun next stepped =>
      ih (meets.2 next stepped)⟩

theorem Meets.append_left (meets : Meets step condition state (first ++ second)) :
    Meets step condition state first := by
  induction first generalizing state with
  | nil => trivial
  | cons action rest ih =>
    exact ⟨meets.1, fun next stepped => ih (meets.2 next stepped)⟩

/-- The side condition holds wherever the schedule's next action is attempted. -/
theorem Meets.at {rest : List Action} {action : Action}
    (meets : Meets step condition state (first ++ action :: rest))
    (reached : exec step state first = .next middle) : condition middle action := by
  induction first generalizing state with
  | nil =>
    cases reached
    exact meets.1
  | cons head tail ih =>
    rcases Outcome.andThen_eq_next.mp reached with ⟨next, stepped, continued⟩
    exact ih (meets.2 next stepped) continued

/-- Conversely, a condition that holds wherever an action is attempted is met
by the whole schedule. -/
theorem meets_of_forall {start : State}
    (holds : ∀ before action after middle, schedule = before ++ action :: after →
      exec step start before = .next middle → condition middle action) :
    Meets step condition start schedule := by
  induction schedule generalizing start with
  | nil => trivial
  | cons action rest ih =>
    refine ⟨holds [] action rest start rfl rfl, fun next stepped => ?_⟩
    apply ih
    intro before later after middle split reached
    apply holds (action :: before) later after middle (by rw [split]; rfl)
    rw [exec_cons, stepped]
    exact reached

/-- What every step preserves under the side condition holds at the end of
every schedule that meets it. -/
theorem exec_invariant (invariant : State → Prop)
    (preserved : ∀ state action next, invariant state → condition state action →
      step state action = .next next → invariant next)
    {start : State} (initially : invariant start)
    (meets : Meets step condition start schedule)
    (reached : exec step start schedule = .next final) : invariant final := by
  induction schedule generalizing start with
  | nil =>
    cases reached
    exact initially
  | cons action rest ih =>
    rcases Outcome.andThen_eq_next.mp reached with ⟨next, stepped, continued⟩
    exact ih (preserved start action next initially meets.1 stepped)
      (meets.2 next stepped) continued

theorem meets_true (start : State) (schedule : List Action) :
    Meets step (fun _ _ => True) start schedule := by
  induction schedule generalizing start with
  | nil => trivial
  | cons action rest ih => exact ⟨trivial, fun next _ => ih next⟩

/-- The unconditional form: an invariant of every step holds on every run. -/
theorem exec_invariant' (invariant : State → Prop)
    (preserved : ∀ state action next, invariant state →
      step state action = .next next → invariant next)
    {start : State} (initially : invariant start)
    (reached : exec step start schedule = .next final) : invariant final :=
  exec_invariant invariant (fun state action next holds _ => preserved state action next holds)
    initially (meets_true start schedule) reached

end

end Foundation
end Xv6
