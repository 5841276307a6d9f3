import Limen.Limit

/-! `AbstractLimit`: the published cap and the change callbacks. `OnSample`, `SetLimit` and
`NotifyOnChange` hold the mutex from beginning to end, so each is one step here. -/
namespace Limen

structure AbstractLimit where
  limit : Int
  /-- What each registered callback has been called with, in order of registration. -/
  listeners : List (List Int) := []
  deriving DecidableEq, Repr

namespace AbstractLimit

def construct (initialLimit : Int) : AbstractLimit := { limit := initialLimit }

def notifyOnChange (l : AbstractLimit) : AbstractLimit := { l with listeners := l.listeners ++ [[]] }

def setLimitLocked (l : AbstractLimit) (newLimit : Int) : AbstractLimit :=
  if newLimit = l.limit then l
  else ⟨newLimit, l.listeners.map fun received => received ++ [newLimit]⟩

/-- Whether or not the callbacks are called, the new cap is in force. -/
@[simp] theorem setLimitLocked_limit (l : AbstractLimit) (newLimit : Int) :
    (l.setLimitLocked newLimit).limit = newLimit := by
  rw [setLimitLocked]
  split
  · exact Eq.symm ‹_›
  · rfl

/-- A subclass: the state of its own that `Update` reads and changes, with the current cap at
hand. -/
structure Algorithm (σ : Type) where
  update : σ → Int → Sample → σ × Int

/-- `FixedLimit` and `SettableLimit` have the same `Update`; the latter lets its callers set
the cap. -/
def fixedLimit : Algorithm Unit where
  update own limit _ := (own, limit)

def settableLimit : Algorithm Unit := fixedLimit

structure State (σ : Type) extends AbstractLimit where
  own : σ

inductive Event where
  | onSample (sample : Sample)
  | setLimit (newLimit : Int)
  | notifyOnChange
  deriving DecidableEq, Repr

namespace Algorithm
variable {σ : Type} (a : Algorithm σ)

def start (initialLimit : Int) (own : σ) : State σ := ⟨construct initialLimit, own⟩

def onSample (s : State σ) (sample : Sample) : State σ :=
  let updated := a.update s.own s.limit sample
  ⟨s.setLimitLocked updated.2, updated.1⟩

def step (s : State σ) : Event → State σ
  | .onSample sample => a.onSample s sample
  | .setLimit newLimit => ⟨s.setLimitLocked newLimit, s.own⟩
  | .notifyOnChange => ⟨s.toAbstractLimit.notifyOnChange, s.own⟩

def after (initialLimit : Int) (own : σ) (events : List Event) : State σ :=
  events.foldl a.step (start initialLimit own)

theorem after_concat (initialLimit : Int) (own : σ) (events : List Event) (e : Event) :
    a.after initialLimit own (events ++ [e]) = a.step (a.after initialLimit own events) e :=
  List.foldl_append
end Algorithm
end AbstractLimit
end Limen
