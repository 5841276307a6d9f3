import Limen.AbstractLimit
import Limen.WindowedLimit

/-! `Limit` objects: an algorithm under any number of decorators. Calls from outside enter at the
top, one after the other, and each decorator passes on what it does. -/
namespace Limen

/-- A `Limit` object and what it owns. `W` is the implementation of the windows, and `lines` is
what the sink of a `TracingLimitDecorator` has received. -/
inductive LimitObject (W σ : Type) where
  | algorithm (state : AbstractLimit.State σ)
  | windowed (c : WindowedLimit.Config) (window : WindowedLimit W) (delegate : LimitObject W σ)
  | tracing (lines : List String) (delegate : LimitObject W σ)

namespace TracingLimitDecorator

def wrap {W σ : Type} (delegate : LimitObject W σ) : LimitObject W σ := .tracing [] delegate

/-- The line that `OnSample` writes. `millis` stands for how a stream writes
`rtt_ns / 1'000'000.0`. -/
def line (millis : Int → String) (s : Sample) : String :=
  "limen.trace maxInFlight=" ++ toString s.inflight ++ " minRtt_ms=" ++ millis s.rttNs ++
    " didDrop=" ++ (if s.didDrop then "true" else "false")
end TracingLimitDecorator

namespace LimitObject
variable {W σ : Type}

def getLimit : LimitObject W σ → Int
  | .algorithm state => state.limit
  | .windowed _ _ delegate => delegate.getLimit
  | .tracing _ delegate => delegate.getLimit

def notifyOnChange : LimitObject W σ → LimitObject W σ
  | .algorithm state => .algorithm ⟨state.toAbstractLimit.notifyOnChange, state.own⟩
  | .windowed c window delegate => .windowed c window delegate.notifyOnChange
  | .tracing lines delegate => .tracing lines delegate.notifyOnChange

/-- `SettableLimit::SetLimit`, which is called on the algorithm itself. -/
def setLimit (newLimit : Int) : LimitObject W σ → LimitObject W σ
  | .algorithm state => .algorithm ⟨state.setLimitLocked newLimit, state.own⟩
  | .windowed c window delegate => .windowed c window (delegate.setLimit newLimit)
  | .tracing lines delegate => .tracing lines (delegate.setLimit newLimit)

/-- The state of the algorithm at the bottom: its cap, what each of its callbacks has received
and what is its own. -/
def bottom : LimitObject W σ → AbstractLimit.State σ
  | .algorithm state => state
  | .windowed _ _ delegate => delegate.bottom
  | .tracing _ delegate => delegate.bottom

/-- What each tracing decorator has written, from the outermost one inwards. -/
def lines : LimitObject W σ → List (List String)
  | .algorithm _ => []
  | .windowed _ _ delegate => delegate.lines
  | .tracing lines delegate => lines :: delegate.lines

/-- The object without its tracing decorators. -/
def untraced : LimitObject W σ → LimitObject W σ
  | .algorithm state => .algorithm state
  | .windowed c window delegate => .windowed c window delegate.untraced
  | .tracing _ delegate => delegate.untraced

theorem untraced_bottom (o : LimitObject W σ) : o.untraced.bottom = o.bottom := by
  induction o with
  | algorithm state => rfl
  | windowed c window delegate ih => exact ih
  | tracing lines delegate ih => exact ih

theorem getLimit_eq (o : LimitObject W σ) : o.getLimit = o.bottom.limit := by
  induction o with
  | algorithm state => rfl
  | windowed c window delegate ih => exact ih
  | tracing lines delegate ih => exact ih

variable [SampleWindow W] (a : AbstractLimit.Algorithm σ) (millis : Int → String)

def onSample : LimitObject W σ → Sample → LimitObject W σ
  | .algorithm state, s => .algorithm (a.onSample state s)
  | .windowed c window delegate, s =>
    match window.onSample c s with
    | (window, none) => .windowed c window delegate
    | (window, some call) => .windowed c window (delegate.onSample call)
  | .tracing lines delegate, s =>
    .tracing (lines ++ [TracingLimitDecorator.line millis s]) (delegate.onSample s)

def step (o : LimitObject W σ) : AbstractLimit.Event → LimitObject W σ
  | .onSample sample => o.onSample a millis sample
  | .setLimit newLimit => o.setLimit newLimit
  | .notifyOnChange => o.notifyOnChange

def after (o : LimitObject W σ) (events : List AbstractLimit.Event) : LimitObject W σ :=
  events.foldl (step a millis) o
end LimitObject

/-! ### Decorators as transformers of the calls they receive -/

namespace WindowedLimit
variable {W : Type} [SampleWindow W]

/-- What a windowing decorator makes of one call, and what it passes on. -/
def receive (c : Config) (w : WindowedLimit W) :
    AbstractLimit.Event → WindowedLimit W × List AbstractLimit.Event
  | .onSample sample => ((w.onSample c sample).1, ((w.onSample c sample).2.map .onSample).toList)
  | e => (w, [e])

def passed (c : Config) (w : WindowedLimit W) : List AbstractLimit.Event → List AbstractLimit.Event
  | [] => []
  | e :: events => (w.receive c e).2 ++ passed c (w.receive c e).1 events
end WindowedLimit

namespace LimitObject
variable {W σ : Type} [SampleWindow W] {a : AbstractLimit.Algorithm σ} {millis : Int → String}

/-- The samples among the calls. -/
def sampled (events : List AbstractLimit.Event) : List Sample :=
  events.filterMap fun
    | .onSample sample => some sample
    | _ => none

/-- The calls that reach the algorithm. -/
def reaching : LimitObject W σ → List AbstractLimit.Event → List AbstractLimit.Event
  | .algorithm _, events => events
  | .windowed c window delegate, events => delegate.reaching (window.passed c events)
  | .tracing _ delegate, events => delegate.reaching events

/-- What the tracing decorators are to write: each a line for every sample that reaches it. -/
def expected (millis : Int → String) :
    LimitObject W σ → List AbstractLimit.Event → List (List String)
  | .algorithm _, _ => []
  | .windowed c window delegate, events => delegate.expected millis (window.passed c events)
  | .tracing lines delegate, events =>
    (lines ++ (sampled events).map (TracingLimitDecorator.line millis)) ::
      delegate.expected millis events

theorem windowed_step (c : WindowedLimit.Config) (window : WindowedLimit W)
    (delegate : LimitObject W σ) (e : AbstractLimit.Event) :
    (windowed c window delegate).step a millis e =
      .windowed c (window.receive c e).1 (delegate.after a millis (window.receive c e).2) := by
  cases e with
  | onSample sample =>
    simp only [step, onSample, WindowedLimit.receive, after]
    split <;> rename_i received <;> rw [received] <;> rfl
  | setLimit newLimit => rfl
  | notifyOnChange => rfl

/-- A windowing decorator works on the calls it receives, and its delegate on those it passes on. -/
theorem windowed_after (c : WindowedLimit.Config) (window : WindowedLimit W)
    (delegate : LimitObject W σ) (events : List AbstractLimit.Event) :
    ∃ window', (windowed c window delegate).after a millis events =
      .windowed c window' (delegate.after a millis (window.passed c events)) := by
  induction events generalizing window delegate with
  | nil => exact ⟨window, rfl⟩
  | cons e events ih =>
    obtain ⟨window', rest⟩ :=
      ih (window.receive c e).1 (delegate.after a millis (window.receive c e).2)
    refine ⟨window', ?_⟩
    rw [after, List.foldl_cons, windowed_step, ← after, rest, WindowedLimit.passed, after, after,
      after, List.foldl_append]

theorem tracing_after (lines : List String) (delegate : LimitObject W σ)
    (events : List AbstractLimit.Event) :
    (tracing lines delegate).after a millis events =
      .tracing (lines ++ (sampled events).map (TracingLimitDecorator.line millis))
        (delegate.after a millis events) := by
  induction events generalizing lines delegate with
  | nil => simp [after, sampled]
  | cons e events ih =>
    have rest (lines : List String) (delegate : LimitObject W σ) := ih lines delegate
    simp only [after] at rest ⊢
    cases e <;> simp [step, onSample, setLimit, notifyOnChange, rest, sampled]

theorem algorithm_after (state : AbstractLimit.State σ) (events : List AbstractLimit.Event) :
    (algorithm state : LimitObject W σ).after a millis events =
      .algorithm (events.foldl a.step state) := by
  induction events generalizing state with
  | nil => rfl
  | cons e events ih =>
    simp only [after, List.foldl_cons] at ih ⊢
    rw [← ih]
    cases e <;> rfl

theorem bottom_after (o : LimitObject W σ) (events : List AbstractLimit.Event) :
    (o.after a millis events).bottom = (o.reaching events).foldl a.step o.bottom := by
  induction o generalizing events with
  | algorithm state =>
    rw [algorithm_after]
    rfl
  | windowed c window delegate ih =>
    obtain ⟨window', same⟩ := windowed_after c window delegate events
    rw [same]
    exact ih _
  | tracing lines delegate ih =>
    rw [tracing_after]
    exact ih _

theorem lines_after (o : LimitObject W σ) (events : List AbstractLimit.Event) :
    (o.after a millis events).lines = o.expected millis events := by
  induction o generalizing events with
  | algorithm state =>
    rw [algorithm_after]
    rfl
  | windowed c window delegate ih =>
    obtain ⟨window', same⟩ := windowed_after c window delegate events
    rw [same]
    exact ih _
  | tracing lines delegate ih =>
    rw [tracing_after]
    exact congrArg _ (ih _)

theorem untraced_reaching (o : LimitObject W σ) (events : List AbstractLimit.Event) :
    o.untraced.reaching events = o.reaching events := by
  induction o generalizing events with
  | algorithm state => rfl
  | windowed c window delegate ih => exact ih _
  | tracing lines delegate ih => exact ih _

/-- Wherever tracing decorators are put among the others, and whatever is called: the cap, all
that the callbacks receive and the state of the algorithm are what they are without them, and
each has written a line for every sample that has reached its place. -/
theorem tracing_transparent (a : AbstractLimit.Algorithm σ) (millis : Int → String)
    (o : LimitObject W σ) (events : List AbstractLimit.Event) :
    (o.after a millis events).getLimit = (o.untraced.after a millis events).getLimit ∧
      (o.after a millis events).bottom = (o.untraced.after a millis events).bottom ∧
      (o.after a millis events).lines = o.expected millis events := by
  have same : (o.after a millis events).bottom = (o.untraced.after a millis events).bottom := by
    rw [bottom_after, bottom_after, untraced_reaching, untraced_bottom]
  refine ⟨?_, same, lines_after o events⟩
  rw [getLimit_eq, getLimit_eq, same]
end LimitObject
end Limen
