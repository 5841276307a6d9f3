import Limen.SampleWindow

/-! What a window is for: after samples `L` it reports aggregates of the list `L`. -/
namespace Limen

/-- The smallest RTT; of interest for lists that are not empty. -/
def minRtt (samples : List Sample) : Int := ((samples.map Sample.rttNs).min?).getD 0

def peakInflight (samples : List Sample) : Int := (samples.map Sample.inflight).foldl max 0

def anyDrop (samples : List Sample) : Bool := samples.any Sample.didDrop

def sumRtt (samples : List Sample) : Int := (samples.map Sample.rttNs).sum

def meanRtt (samples : List Sample) : Int := (sumRtt samples).tdiv samples.length

/-- The RTTs that fit into the array, in order of arrival. -/
def storedRtts (maxSamples : Nat) (samples : List Sample) : List Int :=
  (samples.map Sample.rttNs).take maxSamples

/-- The `rank`-th smallest stored RTT, with `rank` the percentile of their number, to the
nearest integer and between one and that number. -/
def percentileRtt (percentile : ℚ) (maxSamples : Nat) (samples : List Sample) : Int :=
  let stored := storedRtts maxSamples samples
  let rank := max 1 (min (lround (stored.length * percentile)) stored.length)
  ((stored.insertionSort (· ≤ ·))[(rank - 1).toNat]?).getD 0

/-- The fields both windows keep, in the state they have after `samples`. -/
structure Tallied (samples : List Sample) (count low peak : Int) (drop : Bool) : Prop where
  count : count = samples.length
  low : low = (samples.map Sample.rttNs).foldl min int64Max
  peak : peak = peakInflight samples
  drop : drop = anyDrop samples

theorem tallied_nil : Tallied [] 0 int64Max 0 false := ⟨rfl, rfl, rfl, rfl⟩

theorem Tallied.add {samples : List Sample} {count low peak : Int} {drop : Bool}
    (tallied : Tallied samples count low peak drop) (s : Sample)
    (fits : InRange 32 ((samples ++ [s]).length : Int)) :
    Tallied (samples ++ [s]) (wrap 32 (count + 1)) (if s.rttNs < low then s.rttNs else low)
      (if peak < s.inflight then s.inflight else peak) (if s.didDrop then true else drop) := by
  have length : ((samples ++ [s]).length : Int) = count + 1 := by
    rw [tallied.count, List.length_append, List.length_singleton]
    push_cast
    rfl
  constructor
  · rw [length, wrap_eq (by decide) (length ▸ fits)]
  · rw [List.map_append, List.foldl_append, ← tallied.low]
    simp only [List.map_cons, List.map_nil, List.foldl_cons, List.foldl_nil]
    split <;> omega
  · rw [peakInflight, List.map_append, List.foldl_append, ← peakInflight, ← tallied.peak]
    simp only [List.map_cons, List.map_nil, List.foldl_cons, List.foldl_nil]
    split <;> omega
  · rw [anyDrop, List.any_append, ← anyDrop, ← tallied.drop]
    simp only [List.any_cons, List.any_nil, Bool.or_false]
    cases s.didDrop <;> simp

/-- A window implementation that reports the aggregates of a list, as long as its own
counters can represent them. -/
structure Aggregates (W : Type) [SampleWindow W] where
  fresh : W
  tracked : List Sample → Int
  Fits : List Sample → Prop
  Holds : W → List Sample → Prop
  holds_fresh : Holds fresh []
  holds_add : ∀ {w samples} (s : Sample), Holds w samples → Fits (samples ++ [s]) →
    Holds (SampleWindow.addSample w s.rttNs s.inflight s.didDrop) (samples ++ [s])
  holds_reset : ∀ {w samples}, Holds w samples → Holds (SampleWindow.reset w) []
  tallied : ∀ {w samples}, Holds w samples →
    Tallied samples (SampleWindow.sampleCount w) (SampleWindow.candidateRttNs w)
      (SampleWindow.maxInflight w) (SampleWindow.didDrop w)
  tracked_eq : ∀ {w samples}, Holds w samples → samples ≠ [] →
    SampleWindow.trackedRttNs w = tracked samples

namespace AverageSampleWindow

def Fits (samples : List Sample) : Prop :=
  InRange 32 (samples.length : Int) ∧ InRange 64 (sumRtt samples)

instance : DecidablePred Fits := fun _ => inferInstanceAs (Decidable (_ ∧ _))

structure Holds (w : AverageSampleWindow) (samples : List Sample) : Prop where
  tallied : Tallied samples w.sampleCount w.minRttNs w.maxInflight w.didDrop
  sum : w.sumRttNs = sumRtt samples

theorem holds_add {w : AverageSampleWindow} {samples : List Sample} (s : Sample)
    (holds : w.Holds samples) (fits : Fits (samples ++ [s])) :
    (w.addSample s.rttNs s.inflight s.didDrop).Holds (samples ++ [s]) := by
  refine ⟨holds.tallied.add s fits.1, ?_⟩
  have total : sumRtt (samples ++ [s]) = w.sumRttNs + s.rttNs := by
    simp [sumRtt, holds.sum]
  simp only [addSample]
  rw [total, wrap_eq (by decide) (total ▸ fits.2)]

theorem tracked_eq {w : AverageSampleWindow} {samples : List Sample} (holds : w.Holds samples)
    (nonempty : samples ≠ []) : w.trackedRttNs = meanRtt samples := by
  have counted : w.sampleCount ≠ 0 := by
    rw [holds.tallied.count]
    simpa using nonempty
  rw [trackedRttNs, if_neg counted, holds.sum, holds.tallied.count, meanRtt]

def aggregates : Aggregates AverageSampleWindow where
  fresh := {}
  tracked := meanRtt
  Fits := Fits
  Holds := Holds
  holds_fresh := ⟨tallied_nil, rfl⟩
  holds_add := holds_add
  holds_reset _ := ⟨tallied_nil, rfl⟩
  tallied holds := holds.tallied
  tracked_eq := tracked_eq
end AverageSampleWindow

namespace PercentileSampleWindow

def Fits (samples : List Sample) : Prop := InRange 32 (samples.length : Int)

instance : DecidablePred Fits := fun _ => inferInstanceAs (Decidable (InRange _ _))

/-- The array starts with the stored RTTs; what follows them is left from earlier. -/
structure Holds (percentile : ℚ) (maxSamples : Nat) (w : PercentileSampleWindow)
    (samples : List Sample) : Prop where
  percentile_eq : w.percentile = percentile
  maxSamples_eq : w.maxSamples = maxSamples
  size : w.rtts.length = maxSamples
  stored : storedRtts maxSamples samples <+: w.rtts
  tallied : Tallied samples w.sampleCount w.minRttNs w.maxInflight w.didDrop

theorem prefix_set {xs ys : List Int} (x : Int) (start : xs <+: ys) (room : xs.length < ys.length) :
    xs ++ [x] <+: ys.set xs.length x := by
  obtain ⟨tail, rfl⟩ := start
  cases tail with
  | nil => simp at room
  | cons y tail => exact ⟨tail, by simp⟩

theorem store_eq {w : PercentileSampleWindow} {percentile : ℚ} {maxSamples : Nat}
    {samples : List Sample} (holds : w.Holds percentile maxSamples samples) (rttNs : Int) :
    store w.rtts w.storeIndex rttNs =
      if samples.length < maxSamples then w.rtts.set samples.length rttNs else w.rtts := by
  simp only [storeIndex, holds.tallied.count, holds.maxSamples_eq, Nat.cast_lt]
  split <;> simp [store]

theorem holds_add {w : PercentileSampleWindow} {percentile : ℚ} {maxSamples : Nat}
    {samples : List Sample} (s : Sample) (holds : w.Holds percentile maxSamples samples)
    (fits : Fits (samples ++ [s])) :
    (w.addSample s.rttNs s.inflight s.didDrop).Holds percentile maxSamples (samples ++ [s]) := by
  have size := holds.size
  have start := holds.stored
  refine ⟨holds.percentile_eq, holds.maxSamples_eq, ?_, ?_, holds.tallied.add s fits⟩
  · simp only [addSample, store_eq holds]
    split <;> simp [size]
  · simp only [addSample, store_eq holds, storedRtts, List.map_append, List.map_cons, List.map_nil]
    simp only [storedRtts] at start
    split
    · rename_i room
      rw [List.take_of_length_le (by simp; omega)] at start ⊢
      have next := prefix_set s.rttNs start (by simpa [size] using room)
      simpa using next
    · rename_i full
      rw [List.take_append_of_le_length (by simpa using full)]
      exact start

theorem usable_eq {w : PercentileSampleWindow} {percentile : ℚ} {maxSamples : Nat}
    {samples : List Sample} (holds : w.Holds percentile maxSamples samples) :
    min w.sampleCount (w.maxSamples : Int) = (storedRtts maxSamples samples).length := by
  rw [holds.tallied.count, holds.maxSamples_eq, storedRtts, List.length_take, List.length_map]
  omega

theorem sortBuffer_eq {w : PercentileSampleWindow} {percentile : ℚ} {maxSamples : Nat}
    {samples : List Sample} (holds : w.Holds percentile maxSamples samples) :
    w.sortBuffer = (storedRtts maxSamples samples).insertionSort (· ≤ ·) := by
  rw [sortBuffer, usable_eq holds, Int.toNat_natCast, ← List.prefix_iff_eq_take.mp holds.stored]

theorem tracked_eq {w : PercentileSampleWindow} {percentile : ℚ} {maxSamples : Nat}
    {samples : List Sample} (positive : 1 ≤ maxSamples)
    (holds : w.Holds percentile maxSamples samples) (nonempty : samples ≠ []) :
    w.trackedRttNs = percentileRtt percentile maxSamples samples := by
  have counted : w.sampleCount ≠ 0 := by
    rw [holds.tallied.count]
    simpa using nonempty
  have kept : 1 ≤ (storedRtts maxSamples samples).length := by
    have some_ := List.length_pos_iff.mpr nonempty
    rw [storedRtts, List.length_take, List.length_map]
    omega
  have index : w.readIndex = max 1 (min (lround ((storedRtts maxSamples samples).length * percentile))
      (storedRtts maxSamples samples).length) - 1 := by
    simp only [readIndex, usable_eq holds, sortBuffer_eq holds, List.length_insertionSort,
      holds.percentile_eq, Int.cast_natCast]
    omega
  rw [trackedRttNs, if_neg counted, index, sortBuffer_eq holds, percentileRtt]

def aggregates (percentile : ℚ) (maxSamples : Nat) (positive : 1 ≤ maxSamples) :
    Aggregates PercentileSampleWindow where
  fresh := construct percentile maxSamples
  tracked := percentileRtt percentile maxSamples
  Fits := Fits
  Holds := Holds percentile maxSamples
  holds_fresh := ⟨rfl, rfl, by simp [construct], by simp [storedRtts], tallied_nil⟩
  holds_add := holds_add
  holds_reset holds := ⟨holds.percentile_eq, holds.maxSamples_eq, holds.size,
    by simp [storedRtts], tallied_nil⟩
  tallied holds := holds.tallied
  tracked_eq := tracked_eq positive
end PercentileSampleWindow
end Limen
