import Limen.OrderStatistic
import Limen.SampleWindow.Aggregate
import Mathlib.Data.List.Induction

/-! What a percentile window reports, after any history of calls: an order statistic of the RTTs
that have come since the last `Reset` and have found room, and aggregates of all samples since
then. What earlier windows have left in the array is never read. -/
namespace Limen.PercentileSampleWindow
open OrderStatistic

/-- A call of a method that is more than a load. -/
inductive Call where
  | addSample (sample : Sample)
  | trackedRttNs
  | reset
  deriving DecidableEq, Repr

/-- `TrackedRttNs` writes to the sort buffer alone, which it clears first. -/
def apply (w : PercentileSampleWindow) : Call → PercentileSampleWindow
  | .addSample s => w.addSample s.rttNs s.inflight s.didDrop
  | .trackedRttNs => w
  | .reset => w.reset

def after (percentile : ℚ) (maxSamplesPerWindow : Nat) (calls : List Call) :
    PercentileSampleWindow :=
  calls.foldl apply (construct percentile maxSamplesPerWindow)

def Call.enter (samples : List Sample) : Call → List Sample
  | .addSample s => samples ++ [s]
  | .trackedRttNs => samples
  | .reset => []

/-- The samples added since the last `Reset`, or since the construction. -/
def sinceReset (calls : List Call) : List Sample := calls.foldl Call.enter []

theorem after_concat (percentile : ℚ) (maxSamples : Nat) (calls : List Call) (call : Call) :
    after percentile maxSamples (calls ++ [call]) = (after percentile maxSamples calls).apply call :=
  List.foldl_concat ..

theorem sinceReset_concat (calls : List Call) (call : Call) :
    sinceReset (calls ++ [call]) = call.enter (sinceReset calls) := List.foldl_concat ..

/-- What no history changes, however many samples a window gets. -/
structure Kept (percentile : ℚ) (maxSamples : Nat) (samples : List Sample)
    (w : PercentileSampleWindow) : Prop where
  percentile_eq : w.percentile = percentile
  maxSamples_eq : w.maxSamples = maxSamples
  size : w.rtts.length = maxSamples
  count : w.sampleCount = wrap 32 samples.length

variable {percentile : ℚ} {maxSamples : Nat} {samples : List Sample} {w : PercentileSampleWindow}

theorem Kept.apply (kept : Kept percentile maxSamples samples w) (call : Call) :
    Kept percentile maxSamples (call.enter samples) (w.apply call) := by
  cases call with
  | addSample s =>
    refine ⟨kept.percentile_eq, kept.maxSamples_eq, ?_, ?_⟩
    · rw [← kept.size]
      exact length_store ..
    · have counted : (w.apply (.addSample s)).sampleCount = wrap 32 (w.sampleCount + 1) := rfl
      rw [counted, kept.count, wrap_wrap_add, Call.enter, List.length_append, List.length_singleton]
      rfl
  | trackedRttNs => exact kept
  | reset =>
    exact ⟨kept.percentile_eq, kept.maxSamples_eq, kept.size, (wrap_zero 32).symm⟩

theorem after_kept (percentile : ℚ) (maxSamples : Nat) (calls : List Call) :
    Kept percentile maxSamples (sinceReset calls) (after percentile maxSamples calls) := by
  induction calls using List.reverseRecOn with
  | nil => exact ⟨rfl, rfl, List.length_replicate, (wrap_zero 32).symm⟩
  | append_singleton calls call ih =>
    rw [after_concat, sinceReset_concat]
    exact ih.apply call

/-- A window is in order as soon as it has been reset, whatever came before, and stays so while
its samples can be counted. -/
theorem after_holds (percentile : ℚ) (maxSamples : Nat) (calls : List Call)
    (fits : Fits (sinceReset calls)) :
    (after percentile maxSamples calls).Holds percentile maxSamples (sinceReset calls) := by
  induction calls using List.reverseRecOn with
  | nil => exact ⟨rfl, rfl, List.length_replicate, by simp [sinceReset, storedRtts], tallied_nil⟩
  | append_singleton calls call ih =>
    rw [sinceReset_concat] at fits ⊢
    rw [after_concat]
    cases call with
    | addSample s =>
      have earlier : Fits (sinceReset calls) := by
        rw [Call.enter, Fits, InRange, List.length_append, List.length_singleton] at fits
        constructor <;> omega
      exact holds_add s (ih earlier) fits
    | trackedRttNs => exact ih fits
    | reset =>
      have kept := after_kept percentile maxSamples calls
      exact ⟨kept.percentile_eq, kept.maxSamples_eq, kept.size, by simp [Call.enter, storedRtts],
        tallied_nil⟩

/-! ### Order statistics and extremes -/

/-- The rank of the percentile among `usable` values: rounded to the nearest, halves away from
zero, and between one and their number. -/
def percentileRank (percentile : ℚ) (usable : Nat) : Nat :=
  (max 1 (min (lround (usable * percentile)) usable)).toNat

/-- What the methods of a window return that has got these samples since its last `Reset`. -/
structure Reports (percentile : ℚ) (maxSamples : Nat) (samples : List Sample)
    (w : PercentileSampleWindow) : Prop where
  tracked : NthSmallest ((samples.map Sample.rttNs).take maxSamples)
    (percentileRank percentile (min samples.length maxSamples)) (SampleWindow.trackedRttNs w)
  candidate : IsLeast {rttNs | ∃ s ∈ samples, s.rttNs = rttNs} (SampleWindow.candidateRttNs w)
  maxInflight : IsGreatest {inflight | inflight = 0 ∨ ∃ s ∈ samples, s.inflight = inflight}
    (SampleWindow.maxInflight w)
  didDrop : SampleWindow.didDrop w = true ↔ ∃ s ∈ samples, s.didDrop = true
  sampleCount : SampleWindow.sampleCount w = samples.length

theorem nthSmallest_percentileRtt (percentile : ℚ) {maxSamples : Nat} {samples : List Sample}
    (positive : 1 ≤ maxSamples) (nonempty : samples ≠ []) :
    NthSmallest ((samples.map Sample.rttNs).take maxSamples)
      (percentileRank percentile (min samples.length maxSamples))
      (percentileRtt percentile maxSamples samples) := by
  have length : (storedRtts maxSamples samples).length = min samples.length maxSamples := by
    rw [storedRtts, List.length_take, List.length_map, Nat.min_comm]
  have kept : 1 ≤ min samples.length maxSamples :=
    Nat.le_min.mpr ⟨List.length_pos_iff.mpr nonempty, positive⟩
  have index : (max 1 (min (lround ((storedRtts maxSamples samples).length * percentile))
      ((storedRtts maxSamples samples).length : Int)) - 1).toNat + 1 =
        percentileRank percentile (min samples.length maxSamples) := by
    rw [percentileRank, length]
    omega
  have inside : (max 1 (min (lround ((storedRtts maxSamples samples).length * percentile))
      ((storedRtts maxSamples samples).length : Int)) - 1).toNat <
        ((storedRtts maxSamples samples).insertionSort (· ≤ ·)).length := by
    rw [List.length_insertionSort]
    omega
  rw [← index, percentileRtt, List.getElem?_eq_getElem inside]
  exact nthSmallest_insertionSort (List.getElem?_eq_getElem inside)

/-- The minimum starts from the greatest value of the type, which no RTT exceeds. -/
theorem isLeast_of_tallied {count low peak : Int} {drop : Bool}
    (tallied : Tallied samples count low peak drop) (nonempty : samples ≠ [])
    (bounded : ∀ s ∈ samples, s.rttNs ≤ int64Max) :
    IsLeast {rttNs | ∃ s ∈ samples, s.rttNs = rttNs} low := by
  obtain ⟨among, least⟩ := isLeast_foldl_min int64Max (samples.map Sample.rttNs)
  rw [← tallied.low] at among least
  constructor
  · rcases among with start | member
    · obtain ⟨s, first⟩ := List.exists_mem_of_ne_nil samples nonempty
      have below : low ≤ s.rttNs := least (.inr (List.mem_map_of_mem first))
      exact ⟨s, first, le_antisymm (start ▸ bounded s first) below⟩
    · exact List.mem_map.mp member
  · rintro _ ⟨s, member, rfl⟩
    exact least (.inr (List.mem_map_of_mem member))

theorem isGreatest_of_tallied {count low peak : Int} {drop : Bool}
    (tallied : Tallied samples count low peak drop) :
    IsGreatest {inflight | inflight = 0 ∨ ∃ s ∈ samples, s.inflight = inflight} peak := by
  have greatest := isGreatest_foldl_max 0 (samples.map Sample.inflight)
  simp only [List.mem_map] at greatest
  rw [tallied.peak]
  exact greatest

theorem Holds.reports (holds : w.Holds percentile maxSamples samples) (positive : 1 ≤ maxSamples)
    (nonempty : samples ≠ []) (bounded : ∀ s ∈ samples, s.rttNs ≤ int64Max) :
    Reports percentile maxSamples samples w where
  tracked := by
    have same : SampleWindow.trackedRttNs w = percentileRtt percentile maxSamples samples :=
      tracked_eq positive holds nonempty
    rw [same]
    exact nthSmallest_percentileRtt percentile positive nonempty
  candidate := isLeast_of_tallied holds.tallied nonempty bounded
  maxInflight := isGreatest_of_tallied holds.tallied
  didDrop := by
    have drop : SampleWindow.didDrop w = anyDrop samples := holds.tallied.drop
    rw [drop]
    exact List.any_eq_true
  sampleCount := holds.tallied.count

/-- The window reports on the samples since its last `Reset`, whatever came before it; and if
they all have room in the array, the percentile is the same in any order of theirs. -/
theorem reports_current_window (percentile : ℚ) (maxSamples : Nat) (positive : 1 ≤ maxSamples)
    (calls : List Call) (nonempty : 1 ≤ (sinceReset calls).length)
    (fits : (sinceReset calls).length < 2 ^ 31) (typed : ∀ s ∈ sinceReset calls, InRange 64 s.rttNs) :
    Reports percentile maxSamples (sinceReset calls) (after percentile maxSamples calls) ∧
      ∀ others : List Call, sinceReset others = sinceReset calls ∨
          ((sinceReset calls).length ≤ maxSamples ∧ (sinceReset others).Perm (sinceReset calls)) →
        SampleWindow.trackedRttNs (after percentile maxSamples others) =
          SampleWindow.trackedRttNs (after percentile maxSamples calls) := by
  have bounded : ∀ s ∈ sinceReset calls, s.rttNs ≤ int64Max := by
    intro s member
    have high := (typed s member).2
    rw [int64Max]
    omega
  have reported (others : List Call) (same : (sinceReset others).Perm (sinceReset calls)) :
      Reports percentile maxSamples (sinceReset others) (after percentile maxSamples others) := by
    have length := same.length_eq
    refine (after_holds percentile maxSamples others ?_).reports positive ?_ ?_
    · rw [Fits, InRange]
      omega
    · exact List.ne_nil_of_length_pos (by omega)
    · exact fun s member => bounded s (same.mem_iff.mp member)
  have here := reported calls (.refl _)
  refine ⟨here, ?_⟩
  rintro others (same | ⟨room, same⟩)
  · have there := (reported others (.of_eq same)).tracked
    rw [same] at there
    exact there.unique here.tracked
  · have there := (reported others same).tracked
    have length := same.length_eq
    have all (samples : List Sample) (small : samples.length ≤ maxSamples) :
        (samples.map Sample.rttNs).take maxSamples = samples.map Sample.rttNs :=
      List.take_of_length_le (by rwa [List.length_map])
    have sorted := here.tracked
    rw [all _ room] at sorted
    rw [length, all _ (by omega)] at there
    exact (there.perm (same.map _)).unique sorted

/-- An earlier sample, a reset, and five samples for an array of four. -/
def fiveAfterReset : List Call :=
  [.addSample ⟨0, 900, 7, true⟩, .reset, .addSample ⟨0, 5, 1, false⟩, .addSample ⟨0, 1, 1, false⟩,
    .addSample ⟨0, 3, 2, false⟩, .trackedRttNs, .addSample ⟨0, 4, 1, false⟩,
    .addSample ⟨0, 2, 1, false⟩]

theorem fiveAfterReset_reports :
    Reports (1 / 2) 4 (sinceReset fiveAfterReset) (after (1 / 2) 4 fiveAfterReset) ∧
      SampleWindow.trackedRttNs (after (1 / 2) 4 fiveAfterReset) = 3 := by
  constructor
  · exact (reports_current_window (1 / 2) 4 (by decide) fiveAfterReset (by decide) (by decide)
      (by decide)).1
  · decide +kernel
end Limen.PercentileSampleWindow
