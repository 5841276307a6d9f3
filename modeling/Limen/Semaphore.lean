import Limen.Transition

/-! The counting semaphore as an atomic object: an attempt is granted exactly when the
count is below the capacity. -/
namespace Semaphore

inductive Op where
  | acquire (granted : Bool)
  | release
  deriving DecidableEq, Repr

/-- An operation that the object would answer otherwise has no step. -/
def step (capacity count : Int) : Op → Option Int
  | .acquire true => if count < capacity then some (count + 1) else none
  | .acquire false => if capacity ≤ count then some count else none
  | .release => if 0 < count then some (count - 1) else none

/-- The count after a sequence of operations, each entered under the caller that made it. -/
def replay {K : Type*} (capacity : Int) (history : List (K × Op)) : Option Int :=
  Transition.run (step capacity) 0 (history.map Prod.snd)

variable {K : Type*} {capacity count next : Int} {history : List (K × Op)}

theorem replay_append {caller : K} {ops : List Op} (before : replay capacity history = some count)
    (after : Transition.run (step capacity) count ops = some next) :
    replay capacity (history ++ ops.map fun op => (caller, op)) = some next := by
  rw [replay, List.map_append, List.map_map, Transition.run_append_eq_some]
  exact ⟨count, before, by simpa [Function.comp_def] using after⟩
end Semaphore
