import Limen.SampleWindow.Aggregate
import Limen.WindowedLimit

/-! Two slots that take turns do what one list per window does. -/
namespace Limen.WindowedLimit
variable {W : Type} [SampleWindow W]

/-- The reference: the samples of the current window in a list, and the deadline. -/
structure Naive where
  samples : List Sample := []
  nextDue : Int := 0

def windowLength (c : Config) (samples : List Sample) : Int :=
  min (max (2 * minRtt samples) c.minWindowTimeNs) c.maxWindowTimeNs

def Naive.onSample (c : Config) (tracked : List Sample → Int) (n : Naive) (s : Sample) :
    Naive × Option Sample :=
  if s.rttNs < c.minRttThresholdNs then (n, none)
  else
    let samples := n.samples ++ [s]
    let endTime := s.startTimeNs + s.rttNs
    if n.nextDue < endTime then
      (⟨[], endTime + windowLength c samples⟩,
        if c.windowSize ≤ samples.length then
          some ⟨s.startTimeNs, tracked samples, peakInflight samples, anyDrop samples⟩
        else none)
    else (⟨samples, n.nextDue⟩, none)

/-- The delegate calls that a sequence of samples causes. -/
def delegateCalls {σ : Type} (onSample : σ → Sample → σ × Option Sample) :
    σ → List Sample → List Sample
  | _, [] => []
  | state, s :: rest =>
    (onSample state s).2.toList ++ delegateCalls onSample (onSample state s).1 rest

/-- Nothing overflows when the reference takes this sample: neither the end time, nor the
counters of the window, nor, at a boundary, twice the smallest RTT and the next deadline. -/
def NoOverflowAt (c : Config) (fits : List Sample → Prop) (n : Naive) (s : Sample) : Prop :=
  c.minRttThresholdNs ≤ s.rttNs →
    InRange 64 (s.startTimeNs + s.rttNs) ∧ fits (n.samples ++ [s]) ∧
    (n.nextDue < s.startTimeNs + s.rttNs →
      InRange 64 (2 * minRtt (n.samples ++ [s])) ∧
      InRange 64 (s.startTimeNs + s.rttNs + windowLength c (n.samples ++ [s])))

def NoOverflow (c : Config) (tracked : List Sample → Int) (fits : List Sample → Prop) :
    Naive → List Sample → Prop
  | _, [] => True
  | n, s :: rest => NoOverflowAt c fits n s ∧
      NoOverflow c tracked fits (n.onSample c tracked s).1 rest

instance (c : Config) (fits : List Sample → Prop) [DecidablePred fits] (n : Naive) (s : Sample) :
    Decidable (NoOverflowAt c fits n s) := inferInstanceAs (Decidable (_ → _))

instance decidableNoOverflow (c : Config) (tracked : List Sample → Int) (fits : List Sample → Prop)
    [DecidablePred fits] (n : Naive) :
    (samples : List Sample) → Decidable (NoOverflow c tracked fits n samples)
  | [] => .isTrue trivial
  | s :: rest =>
    have := decidableNoOverflow c tracked fits (n.onSample c tracked s).1 rest
    inferInstanceAs (Decidable (_ ∧ _))

/-- The active slot holds the list of the current window, and the other slot is fresh. -/
structure Represents (a : Aggregates W) (w : WindowedLimit W) (n : Naive) : Prop where
  active : a.Holds (w.slots w.activeIndex) n.samples
  inactive : a.Holds (w.slots (1 - w.activeIndex)) []
  due : w.nextUpdateTimeNs = n.nextDue

theorem represents_construct (a : Aggregates W) : Represents a (construct a.fresh) {} :=
  ⟨a.holds_fresh, a.holds_fresh, rfl⟩

theorem other_ne (i : Fin 2) : 1 - i ≠ i := by
  revert i
  decide

theorem other_other (i : Fin 2) : 1 - (1 - i) = i := by
  revert i
  decide

theorem candidate_eq {samples : List Sample} {count low peak : Int} {drop : Bool}
    (tallied : Tallied samples count low peak drop) (nonempty : samples ≠ [])
    (fits : InRange 64 (2 * minRtt samples)) : low = minRtt samples ∧ low ≠ int64Max := by
  have bound : 2 * minRtt samples < 2 ^ 63 := fits.2
  have low_eq := tallied.low
  rw [List.foldl_min] at low_eq
  have present : (samples.map Sample.rttNs).min? = some (minRtt samples) := by
    rw [minRtt]
    cases least : (samples.map Sample.rttNs).min? with
    | none => simp [nonempty] at least
    | some rtt => rfl
  rw [present, Option.getD_some] at low_eq
  simp only [int64Max] at low_eq ⊢
  omega

theorem boundary_represents {a : Aggregates W} {c : Config} {w : WindowedLimit W}
    {samples : List Sample} {startTimeNs endTimeNs : Int} (nonempty : samples ≠ [])
    (active : a.Holds (w.slots w.activeIndex) samples)
    (inactive : a.Holds (w.slots (1 - w.activeIndex)) [])
    (double : InRange 64 (2 * minRtt samples))
    (deadline : InRange 64 (endTimeNs + windowLength c samples)) :
    Represents a (w.boundary c startTimeNs endTimeNs).1 ⟨[], endTimeNs + windowLength c samples⟩ ∧
      (w.boundary c startTimeNs endTimeNs).2 =
        if c.windowSize ≤ samples.length then
          some ⟨startTimeNs, a.tracked samples, peakInflight samples, anyDrop samples⟩
        else none := by
  have tallied := a.tallied active
  obtain ⟨candidate, proper⟩ := candidate_eq tallied nonempty double
  have length : adaptiveNs c (SampleWindow.candidateRttNs (w.slots w.activeIndex)) =
      windowLength c samples := by
    rw [adaptiveNs, if_neg proper, candidate, Int.mul_comm, wrap_eq (by decide) double, windowLength]
  constructor
  · constructor
    · simp only [boundary, Function.update_apply, other_ne, if_false]
      exact inactive
    · simp only [boundary, other_other, Function.update_self]
      exact a.holds_reset active
    · simp only [boundary, length]
      exact wrap_eq (by decide) deadline
  · simp only [boundary, tallied.count, tallied.peak, tallied.drop, a.tracked_eq active nonempty]
    simp only [proper, ne_eq, not_false_eq_true, true_and]

theorem onSample_represents {a : Aggregates W} {c : Config} {w : WindowedLimit W} {n : Naive}
    (s : Sample) (represents : Represents a w n) (safe : NoOverflowAt c a.Fits n s) :
    Represents a (w.onSample c s).1 (n.onSample c a.tracked s).1 ∧
      (w.onSample c s).2 = (n.onSample c a.tracked s).2 := by
  by_cases noise : s.rttNs < c.minRttThresholdNs
  · simp only [onSample, Naive.onSample, if_pos noise]
    exact ⟨represents, trivial⟩
  · obtain ⟨endRange, fits, atBoundary⟩ := safe (Int.not_lt.mp noise)
    have active := a.holds_add s represents.active fits
    simp only [onSample, Naive.onSample, if_neg noise, wrap_eq (by decide) endRange]
    by_cases due : n.nextDue < s.startTimeNs + s.rttNs
    · obtain ⟨double, deadline⟩ := atBoundary due
      have crossed : ¬ s.startTimeNs + s.rttNs ≤ w.nextUpdateTimeNs := by
        rw [represents.due]
        omega
      rw [if_neg crossed, if_pos due]
      refine boundary_represents (by simp) ?_ ?_ double deadline
      · simpa using active
      · simpa [Function.update_apply, other_ne] using represents.inactive
    · have early : s.startTimeNs + s.rttNs ≤ w.nextUpdateTimeNs := by
        rw [represents.due]
        omega
      rw [if_pos early, if_neg due]
      refine ⟨⟨?_, ?_, represents.due⟩, rfl⟩
      · simpa using active
      · simpa [Function.update_apply, other_ne] using represents.inactive

theorem delegateCalls_eq {a : Aggregates W} {c : Config} {w : WindowedLimit W} {n : Naive}
    {samples : List Sample} (represents : Represents a w n)
    (safe : NoOverflow c a.tracked a.Fits n samples) :
    delegateCalls (onSample c) w samples = delegateCalls (Naive.onSample c a.tracked) n samples := by
  induction samples generalizing w n with
  | nil => rfl
  | cons s rest ih =>
    obtain ⟨next, call⟩ := onSample_represents s represents safe.1
    rw [delegateCalls, delegateCalls, call, ih next safe.2]

/-- For either kind of slot, the delegate is driven exactly as by a list per window. -/
theorem refines_list_per_window (c : Config) :
    (∀ samples, NoOverflow c meanRtt AverageSampleWindow.Fits {} samples →
      delegateCalls (onSample c) (construct ({} : AverageSampleWindow)) samples =
        delegateCalls (Naive.onSample c meanRtt) {} samples) ∧
    ∀ (percentile : ℚ) (maxSamples : Nat), 1 ≤ maxSamples → ∀ samples,
      NoOverflow c (percentileRtt percentile maxSamples) PercentileSampleWindow.Fits {} samples →
      delegateCalls (onSample c)
          (construct (PercentileSampleWindow.construct percentile maxSamples)) samples =
        delegateCalls (Naive.onSample c (percentileRtt percentile maxSamples)) {} samples := by
  constructor
  · intro samples safe
    exact delegateCalls_eq (represents_construct AverageSampleWindow.aggregates) safe
  · intro percentile maxSamples positive samples safe
    exact delegateCalls_eq
      (represents_construct (PercentileSampleWindow.aggregates percentile maxSamples positive)) safe

def pairWindows : Config where
  minWindowTimeNs := 5
  maxWindowTimeNs := 50
  windowSize := 2
  minRttThresholdNs := 3
  minWindowTime_pos := by decide
  window_ordered := by decide
  windowSize_pos := by decide
  threshold_nonneg := by decide

/-- Five samples: the first closes a window that is too small, the second is noise. -/
def fiveSamples : List Sample :=
  [⟨0, 10, 1, false⟩, ⟨1, 2, 9, true⟩, ⟨4, 8, 3, false⟩, ⟨5, 6, 2, true⟩, ⟨30, 7, 5, false⟩]

theorem fiveSamples_refines :
    NoOverflow pairWindows meanRtt AverageSampleWindow.Fits {} fiveSamples ∧
      NoOverflow pairWindows (percentileRtt (1 / 2) 2) PercentileSampleWindow.Fits {} fiveSamples ∧
      delegateCalls (onSample pairWindows) (construct ({} : AverageSampleWindow)) fiveSamples =
        [⟨30, 7, 5, true⟩] ∧
      delegateCalls (onSample pairWindows)
        (construct (PercentileSampleWindow.construct (1 / 2) 2)) fiveSamples =
        [⟨30, 6, 5, true⟩] := by
  obtain ⟨average, percentile⟩ := refines_list_per_window pairWindows
  have averageSafe : NoOverflow pairWindows meanRtt AverageSampleWindow.Fits {} fiveSamples := by
    decide
  have percentileSafe : NoOverflow pairWindows (percentileRtt (1 / 2) 2)
      PercentileSampleWindow.Fits {} fiveSamples := by decide
  refine ⟨averageSafe, percentileSafe, ?_, ?_⟩
  · rw [average fiveSamples averageSafe]
    decide
  · rw [percentile (1 / 2) 2 (by decide) fiveSamples percentileSafe]
    decide +kernel
end Limen.WindowedLimit
