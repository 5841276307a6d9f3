import Limen.Pool
import Limen.SampleWindow.Atomic
import Limen.Transition
import Limen.WindowedLimit

/-! `WindowedLimit::OnSample` by any number of threads. One event lets one call make its next
access to the shared atomics, to a window's or to `boundary_mu_`. -/
namespace Limen.WindowedLimit
open Transition

/-- The locals that the boundary work reads from the window it closes. -/
structure Aggregate where
  candidateRtt : Int := 0
  trackedRtt : Int := 0
  maxInflight : Int := 0
  sampleCount : Int := 0
  didDropInWindow : Bool := false
  deriving DecidableEq, Repr

/-- The points of the boundary work. A call of the delegate lasts while its caller is at
`inDelegate`. -/
inductive Stage (τ ρ : Type) where
  | loadCandidate
  | trackedRtt (pc : τ)
  | loadMaxInflight
  | loadSampleCount
  | loadDidDrop
  | storeActive
  | storeDue
  | callDelegate
  | inDelegate
  | reset (pc : ρ)
  deriving DecidableEq, Repr

/-- The points of `OnSample`. -/
inductive Point (α τ ρ : Type) where
  | loadActive
  | addSample (idx : Fin 2) (pc : α)
  | loadDue
  | tryLock
  | reloadDue
  | loadOld
  | boundary (oldIdx : Fin 2) (read : Aggregate) (stage : Stage τ ρ)
  | unlock
  | returned
  deriving DecidableEq, Repr

/-- The object, with its mutex. -/
structure Shared (W : Type) extends WindowedLimit W where
  boundaryMu : Bool := false

structure Call (α τ ρ : Type) where
  sample : Sample
  point : Point α τ ρ
  deriving DecidableEq, Repr

/-- Calls are numbered by their position in `calls`. -/
structure State (W α τ ρ : Type) extends Shared W where
  calls : List (Call α τ ρ)

inductive Event where
  | onSample (s : Sample)
  | advance (call : Nat) (spurious : Bool := false)
  deriving DecidableEq, Repr

variable {W α τ ρ : Type}

def Call.moveTo (point : Point α τ ρ) (call : Call α τ ρ) : Call α τ ρ := { call with point }

def endTimeNs (s : Sample) : Int := wrap 64 (s.startTimeNs + s.rttNs)

section Step
variable [AtomicWindow W α τ ρ]

def windowReady (c : Config) (read : Aggregate) : Bool :=
  read.candidateRtt ≠ int64Max ∧ c.windowSize ≤ read.sampleCount

/-- The next operation of the boundary work on slot `old`. -/
def Stage.advance (c : Config) (w : Shared W) (s : Sample) (old : Fin 2) (read : Aggregate) :
    Stage τ ρ → Shared W × Point α τ ρ
  | .loadCandidate =>
    let candidateRtt := SampleWindow.candidateRttNs (w.slots old)
    (w, .boundary old { read with candidateRtt } (.trackedRtt (AtomicWindow.trackEntry W)))
  | .trackedRtt pc =>
    match AtomicWindow.trackStep (w.slots old) pc with
    | .inl pc => (w, .boundary old read (.trackedRtt pc))
    | .inr rtt => (w, .boundary old { read with trackedRtt := rtt } .loadMaxInflight)
  | .loadMaxInflight =>
    let maxInflight := SampleWindow.maxInflight (w.slots old)
    (w, .boundary old { read with maxInflight } .loadSampleCount)
  | .loadSampleCount =>
    let sampleCount := SampleWindow.sampleCount (w.slots old)
    (w, .boundary old { read with sampleCount } .loadDidDrop)
  | .loadDidDrop =>
    let didDropInWindow := SampleWindow.didDrop (w.slots old)
    (w, .boundary old { read with didDropInWindow } .storeActive)
  | .storeActive => ({ w with activeIndex := 1 - old }, .boundary old read .storeDue)
  | .storeDue =>
    let due := wrap 64 (endTimeNs s + adaptiveNs c read.candidateRtt)
    ({ w with nextUpdateTimeNs := due }, .boundary old read .callDelegate)
  | .callDelegate =>
    if windowReady c read then (w, .boundary old read .inDelegate)
    else (w, .boundary old read (.reset (AtomicWindow.resetEntry W)))
  | .inDelegate => (w, .boundary old read (.reset (AtomicWindow.resetEntry W)))
  | .reset pc =>
    let (slot, next) := AtomicWindow.resetStep (w.slots old) pc
    ({ w with slots := Function.update w.slots old slot },
      match next with
      | some pc => .boundary old read (.reset pc)
      | none => .unlock)

/-- The next operation of a call. A `try_lock` may fail although the mutex is free. -/
def Point.advance (c : Config) (w : Shared W) (s : Sample) (spurious : Bool) :
    Point α τ ρ → Option (Shared W × Point α τ ρ)
  | .loadActive => some (w, .addSample w.activeIndex (AtomicWindow.addEntry W))
  | .addSample idx pc =>
    let (slot, next) := AtomicWindow.addStep (w.slots idx) s spurious pc
    some ({ w with slots := Function.update w.slots idx slot },
      match next with
      | some pc => .addSample idx pc
      | none => .loadDue)
  | .loadDue => some (w, if endTimeNs s ≤ w.nextUpdateTimeNs then .returned else .tryLock)
  | .tryLock =>
    some (if w.boundaryMu ∨ spurious then (w, .returned)
      else ({ w with boundaryMu := true }, .reloadDue))
  | .reloadDue => some (w, if endTimeNs s ≤ w.nextUpdateTimeNs then .unlock else .loadOld)
  | .loadOld => some (w, .boundary w.activeIndex {} .loadCandidate)
  | .boundary old read stage => some (stage.advance c w s old read)
  | .unlock => some ({ w with boundaryMu := false }, .returned)
  | .returned => none

namespace State

def start (factory : W) : State W α τ ρ where
  slots _ := factory
  calls := []

def step (c : Config) (s : State W α τ ρ) : Event → Option (State W α τ ρ)
  | .onSample sample =>
    let point := if sample.rttNs < c.minRttThresholdNs then .returned else .loadActive
    some { s with calls := s.calls ++ [⟨sample, point⟩] }
  | .advance i spurious => do
    let call ← s.calls[i]?
    let (shared, point) ← call.point.advance c s.toShared call.sample spurious
    some { shared with calls := s.calls.modify i (Call.moveTo point) }
end State
end Step

theorem tenNs_pos : (0 : Int) < 10 := by decide

/-- A configuration for short runs: one sample is enough for the delegate. -/
def quickWindows : Config where
  minWindowTimeNs := 10
  maxWindowTimeNs := 100
  windowSize := 1
  minRttThresholdNs := 1
  minWindowTime_pos := tenNs_pos
  window_ordered := by decide
  windowSize_pos := by decide
  threshold_nonneg := by decide
end Limen.WindowedLimit
