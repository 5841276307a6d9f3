import Limen.AbstractLimit.Callbacks

/-! The cap does not depend on the unit of time. A run on samples in another unit is the given
one with a long-term RTT in that unit, and every decision is on a quotient of two RTTs. -/
namespace Limen
variable {c : Int}

namespace ExpAvgMeasurement

/-- The same measurement of samples that are `c` times as large. -/
def scale (c : ℚ) (m : ExpAvgMeasurement) : ExpAvgMeasurement :=
  { m with value := c * m.value, sum := c * m.sum }

theorem add_scale (c : ℚ) (m : ExpAvgMeasurement) (sample : ℚ) :
    (m.scale c).add (c * sample) = (m.add sample).scale c := by
  by_cases warming : m.count < m.warmupWindow
  · have still : (m.scale c).count < (m.scale c).warmupWindow := warming
    rw [add_warmup warming, add_warmup still]
    simp only [scale, mk.injEq, and_self, and_true]
    constructor <;> ring
  · have steady : m.warmupWindow ≤ m.count := Int.not_lt.mp warming
    have still : (m.scale c).warmupWindow ≤ (m.scale c).count := steady
    rw [add_steady steady, add_steady still]
    simp only [scale, mk.injEq, and_self, and_true]
    ring
end ExpAvgMeasurement

namespace Gradient2Limit
open ExpAvgMeasurement AbstractLimit

theorem correctDrift_scale (positive : 0 < c) (m : ExpAvgMeasurement) (shortRtt : ℚ) :
    correctDrift (m.scale c) (c * shortRtt) = (correctDrift m shortRtt).scale c := by
  have nonzero : (c : ℚ) ≠ 0 := by exact_mod_cast positive.ne'
  have quotient : (m.scale c).value / (c * shortRtt) = m.value / shortRtt :=
    mul_div_mul_left _ _ nonzero
  rw [correctDrift, correctDrift, quotient]
  split
  · simp only [ExpAvgMeasurement.scale, ExpAvgMeasurement.update, ExpAvgMeasurement.mk.injEq,
      and_self, and_true]
    ring
  · rfl

theorem gradient_scale (b : Builder) (positive : 0 < c) (longRtt shortRtt : ℚ) :
    gradient b (c * longRtt) (c * shortRtt) = gradient b longRtt shortRtt := by
  have nonzero : (c : ℚ) ≠ 0 := by exact_mod_cast positive.ne'
  rw [gradient, gradient, mul_left_comm, mul_div_mul_left _ _ nonzero]

theorem scale_nonpos (positive : 0 < c) {rttNs : Int} : c * rttNs ≤ 0 ↔ rttNs ≤ 0 := by
  constructor
  · intro le
    exact nonpos_of_mul_nonpos_right le positive
  · intro le
    exact mul_nonpos_of_nonneg_of_nonpos positive.le le

def scale (c : ℚ) (g : Gradient2Limit) : Gradient2Limit := { g with longRtt := g.longRtt.scale c }

/-- One sample in the other unit: the same cap, and a state that differs in the unit alone. -/
theorem update_scale (b : Builder) (positive : 0 < c) (g : Gradient2Limit) (rttNs inflight : Int) :
    (g.scale c).update b (c * rttNs) inflight =
      ((g.update b rttNs inflight).1.scale c, (g.update b rttNs inflight).2) := by
  have cast : ((c * rttNs : Int) : ℚ) = c * rttNs := by push_cast; rfl
  by_cases measured : rttNs ≤ 0
  · rw [update, update, if_pos measured, if_pos ((scale_nonpos positive).mpr measured)]
    rfl
  · have folded : (g.scale c).longRtt.add (c * rttNs) = (g.longRtt.add rttNs).scale c :=
      add_scale c g.longRtt rttNs
    have same : gradient b ((g.longRtt.add rttNs).scale c).value (c * rttNs) =
        gradient b (g.longRtt.add rttNs).value rttNs := gradient_scale b positive _ _
    simp only [update, if_neg measured, if_neg (mt (scale_nonpos positive).mp measured), cast, folded,
      correctDrift_scale positive, same]
    by_cases limited : (inflight : ℚ) < g.estimatedLimit / 2
    · rw [if_pos limited]
      exact if_pos limited
    · rw [if_neg limited]
      exact if_neg limited

/-- What `Update` calls the `QueueSizeFn` with: once, unless there is no measured RTT. -/
def queueSizeArguments (g : Gradient2Limit) (rttNs : Int) : List Int :=
  if rttNs ≤ 0 then [] else [truncate g.estimatedLimit]

/-- `Update` depends on the function by its values at these arguments alone. -/
theorem update_queueSizeFn {b : Builder} {g : Gradient2Limit} {rttNs : Int} {other : Int → Int}
    (same : ∀ cap ∈ g.queueSizeArguments rttNs, other cap = b.queueSizeFn cap) (inflight : Int) :
    g.update { b with queueSizeFn := other } rttNs inflight = g.update b rttNs inflight := by
  by_cases measured : rttNs ≤ 0
  · rw [update, update, if_pos measured, if_pos measured]
  · have value := same (truncate g.estimatedLimit) (by simp [queueSizeArguments, measured])
    rw [update, update, if_neg measured, if_neg measured]
    simp only [value]
    rfl
end Gradient2Limit

namespace AbstractLimit
open Gradient2Limit

def Event.scale (c : Int) : Event → Event
  | .onSample sample => .onSample { sample with rttNs := c * sample.rttNs }
  | .setLimit newLimit => .setLimit newLimit
  | .notifyOnChange => .notifyOnChange

def State.scale (c : ℚ) (s : State (ℚ × ExpAvgMeasurement)) : State (ℚ × ExpAvgMeasurement) :=
  { s with own := (s.own.1, s.own.2.scale c) }

variable (b : Builder) (s : State (ℚ × ExpAvgMeasurement))

def gradient2Start : State (ℚ × ExpAvgMeasurement) :=
  Algorithm.start b.initialLimit (b.initialLimit, b.build.longRtt)

/-- A `Gradient2Limit` after samples and registrations of callbacks. -/
def gradient2After (events : List Event) : State (ℚ × ExpAvgMeasurement) :=
  (gradient2Limit b).after b.initialLimit (b.initialLimit, b.build.longRtt) events

def queueSizeCall : Event → List Int
  | .onSample sample =>
    Gradient2Limit.queueSizeArguments ⟨s.toAbstractLimit, s.own.1, s.own.2⟩ sample.rttNs
  | .setLimit _ | .notifyOnChange => []

/-- The arguments of the `QueueSizeFn` along a run. -/
def queueSizeCalls (s : State (ℚ × ExpAvgMeasurement)) : List Event → List Int
  | [] => []
  | e :: events => queueSizeCall s e ++ queueSizeCalls ((gradient2Limit b).step s e) events

theorem step_scale (positive : 0 < c) (e : Event) :
    (gradient2Limit b).step (s.scale c) (e.scale c) = ((gradient2Limit b).step s e).scale c := by
  cases e with
  | setLimit newLimit => rfl
  | notifyOnChange => rfl
  | onSample sample =>
    have updated := update_scale b positive ⟨construct s.limit, s.own.1, s.own.2⟩ sample.rttNs
      sample.inflight
    simp only [Gradient2Limit.scale] at updated
    simp only [Event.scale, Algorithm.step, Algorithm.onSample, gradient2Limit, State.scale, updated]

theorem queueSizeCall_scale (positive : 0 < c) (e : Event) :
    queueSizeCall (s.scale c) (e.scale c) = queueSizeCall s e := by
  cases e with
  | setLimit newLimit => rfl
  | notifyOnChange => rfl
  | onSample sample =>
    simp only [queueSizeCall, Event.scale, Gradient2Limit.queueSizeArguments, scale_nonpos positive]
    rfl

theorem foldl_scale (positive : 0 < c) (events : List Event) :
    (events.map (Event.scale c)).foldl (gradient2Limit b).step (s.scale c) =
      (events.foldl (gradient2Limit b).step s).scale c := by
  induction events generalizing s with
  | nil => rfl
  | cons e events ih =>
    rw [List.map_cons, List.foldl_cons, List.foldl_cons, step_scale b s positive, ih]

theorem queueSizeCalls_scale (positive : 0 < c) (events : List Event) :
    queueSizeCalls b (s.scale c) (events.map (Event.scale c)) = queueSizeCalls b s events := by
  induction events generalizing s with
  | nil => rfl
  | cons e events ih =>
    rw [List.map_cons, queueSizeCalls, queueSizeCalls, step_scale b s positive,
      queueSizeCall_scale s positive, ih]

/-- A limit that has seen no sample has no unit yet. -/
theorem start_scale (c : ℚ) : (gradient2Start b).scale c = gradient2Start b := by
  simp [State.scale, gradient2Start, Algorithm.start, ExpAvgMeasurement.scale, Builder.build]

theorem gradient2After_scale (positive : 0 < c) (events : List Event) :
    gradient2After b (events.map (Event.scale c)) = (gradient2After b events).scale c := by
  have ran := foldl_scale b (gradient2Start b) positive events
  rwa [start_scale] at ran

/-- In another unit of time the published caps are the same all along, the callbacks receive
the same values, and the `QueueSizeFn` is called with the same arguments. -/
theorem time_unit_immaterial (positive : 0 < c) (events : List Event) :
    (∀ before, before <+: events →
      (gradient2After b (before.map (Event.scale c))).limit = (gradient2After b before).limit) ∧
      (gradient2After b (events.map (Event.scale c))).listeners =
        (gradient2After b events).listeners ∧
      queueSizeCalls b (gradient2Start b) (events.map (Event.scale c)) =
        queueSizeCalls b (gradient2Start b) events := by
  refine ⟨?_, ?_, ?_⟩
  · intro before _
    rw [gradient2After_scale b positive]
    rfl
  · rw [gradient2After_scale b positive]
    rfl
  · have calls := queueSizeCalls_scale b (gradient2Start b) positive events
    rwa [start_scale] at calls

/-- A callback among samples in nanoseconds and in picoseconds. -/
theorem picoseconds_immaterial :
    (gradient2After {} ([.notifyOnChange, .onSample ⟨0, 100, 20, false⟩,
        .onSample ⟨0, 400, 20, false⟩].map (Event.scale 1000))).listeners =
      (gradient2After {} [.notifyOnChange, .onSample ⟨0, 100, 20, false⟩,
        .onSample ⟨0, 400, 20, false⟩]).listeners :=
  (time_unit_immaterial {} (by decide) _).2.1
end AbstractLimit
end Limen
