import P8.Lib.Runs

/-!
# Steps: when a step of a thread takes place

The machines in which threads of the program take turns share how a step ends that does not take place. A step is not enabled
where its thread is somewhere else, or waits for a lock; that it is bad is a fact to be proved impossible, or a defect.
-/

namespace P8

/-- Why a step does not take place: it is not enabled, or it uses a null pointer or an object that is gone. -/
inductive Halt where
  | disabled | badAccess
  deriving DecidableEq

/-- A step that is enabled where the condition holds. -/
def when (c : Prop) [Decidable c] {α : Type} (x : Except Halt α) : Except Halt α := if c then x else .error .disabled

/-- A guarded step ends where its guard holds and the step does. -/
theorem when_eq_ok {c : Prop} [Decidable c] {α : Type} {x : Except Halt α} {a : α} :
    when c x = .ok a ↔ c ∧ x = .ok a := by
  unfold when
  split <;> simp [*]

/-- A guarded step fails where its guard holds and the step does. -/
theorem when_eq_badAccess {c : Prop} [Decidable c] {α : Type} {x : Except Halt α} :
    when c x = .error .badAccess ↔ c ∧ x = .error .badAccess := by
  unfold when
  split <;> simp [*]

end P8
