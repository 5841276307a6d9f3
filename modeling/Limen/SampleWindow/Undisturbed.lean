import Limen.SampleWindow.Atomic
import Limen.Transition

/-! The methods of the two windows with nobody else at work: the atomic operations of a call
add up to the call in one step. -/
namespace Limen
open Transition

namespace Extremes

/-- What `AddSample` makes of the fields that the windows share. -/
def add (x : Extremes) (s : Sample) : Extremes where
  minRttNs := if s.rttNs < x.minRttNs then s.rttNs else x.minRttNs
  maxInflight := if x.maxInflight < s.inflight then s.inflight else x.maxInflight
  didDrop := if s.didDrop then true else x.didDrop

variable (x : Extremes) (s : Sample)

theorem finishes_max : Finishes (fun x pc => addStep x s false pc) x .loadMax
    { x.add s with minRttNs := x.minRttNs } := by
  by_cases higher : x.maxInflight < s.inflight
  · have tried : addStep x s false .loadMax = (x, some (.exchangeMax x.maxInflight)) := by
      simp [addStep, tryMax, higher]
    have exchanged : addStep x s false (.exchangeMax x.maxInflight) =
        ({ x with maxInflight := s.inflight }, if s.didDrop then some .drop else none) := by
      simp [addStep]
    refine .next tried ?_
    cases drops : s.didDrop with
    | true =>
      rw [drops, if_pos rfl] at exchanged
      refine .next exchanged (.last ?_)
      simp [addStep, add, higher, drops]
    | false =>
      refine .last (exchanged.trans ?_)
      simp [add, higher, drops]
  · cases drops : s.didDrop with
    | true =>
      have tried : addStep x s false .loadMax = (x, some .drop) := by
        simp [addStep, tryMax, higher, drops]
      refine .next tried (.last ?_)
      simp [addStep, add, higher, drops]
    | false =>
      refine .last ?_
      simp [addStep, tryMax, add, higher, drops]

theorem finishes_min : Finishes (fun x pc => addStep x s false pc) x .loadMin (x.add s) := by
  by_cases lower : s.rttNs < x.minRttNs
  · have tried : addStep x s false .loadMin = (x, some (.exchangeMin x.minRttNs)) := by
      simp [addStep, tryMin, lower]
    have exchanged : addStep x s false (.exchangeMin x.minRttNs) =
        ({ x with minRttNs := s.rttNs }, some .loadMax) := by
      simp [addStep]
    refine .next tried (.next exchanged ?_)
    simpa [add, lower] using finishes_max { x with minRttNs := s.rttNs } s
  · have tried : addStep x s false .loadMin = (x, some .loadMax) := by
      simp [addStep, tryMin, lower]
    refine .next tried ?_
    simpa [add, lower] using finishes_max x s
end Extremes

namespace AverageSampleWindow

theorem finishes_add (w : AverageSampleWindow) (s : Sample) :
    Finishes (fun w pc => addStep w s false pc) w .count
      (w.addSample s.rttNs s.inflight s.didDrop) := by
  let summed : AverageSampleWindow :=
    { w with
      sampleCount := wrap 32 (w.sampleCount + 1)
      sumRttNs := wrap 64 (w.sumRttNs + s.rttNs) }
  refine .next rfl (.next rfl ?_)
  refine (Extremes.finishes_min summed.extremes s).lift summed.setExtremes
    (fun pc => pc.late = true) Extremes.addStep_late ?_ rfl
  exact fun x pc late => addStep_of_late (summed.setExtremes x) s false late

theorem returns_tracked (w : AverageSampleWindow) :
    Returns w.trackStep .loadCount w.trackedRttNs := by
  rw [trackedRttNs]
  split
  · refine .last ?_
    rw [trackStep, if_pos (by assumption)]
  · refine .next (q := .loadSum w.sampleCount) ?_ (.last rfl)
    rw [trackStep, if_neg (by assumption)]

theorem finishes_reset (w : AverageSampleWindow) : Finishes resetStep w .count w.reset :=
  .next rfl (.next rfl (.next rfl (.next rfl (.last rfl))))
end AverageSampleWindow

namespace PercentileSampleWindow

theorem finishes_add (w : PercentileSampleWindow) (s : Sample) :
    Finishes (fun w pc => addStep w s false pc) w .count
      (w.addSample s.rttNs s.inflight s.didDrop) := by
  let stored : PercentileSampleWindow :=
    { w with
      sampleCount := wrap 32 (w.sampleCount + 1)
      rtts := store w.rtts w.storeIndex s.rttNs }
  have rest : Finishes (fun w pc => addStep w s false pc) stored .loadMin
      (w.addSample s.rttNs s.inflight s.didDrop) := by
    refine (Extremes.finishes_min stored.extremes s).lift stored.setExtremes
      (fun pc => pc.late = true) Extremes.addStep_late ?_ rfl
    exact fun x pc late => addStep_of_late (stored.setExtremes x) s false late
  by_cases room : w.sampleCount < w.maxSamples
  · have claimed : addStep w s false .count =
        ({ w with sampleCount := wrap 32 (w.sampleCount + 1) }, some (.record w.sampleCount)) := by
      simp [addStep, room]
    refine .next claimed (.next ?_ rest)
    simp [addStep, stored, storeIndex, room]
  · refine .next (q := .loadMin) ?_ rest
    simp [addStep, stored, storeIndex, store, room]

/-- The copying loop, by what is left to copy. -/
theorem returns_copied (w : PercentileSampleWindow) (usable : Int) (inside : usable ≤ w.rtts.length)
    (left : Nat) {k : Nat} (more : k + left = usable.toNat) {pc : TrackPoint}
    (here : w.trackStep pc = w.tryEntry usable (w.rtts.take k)) :
    Returns w.trackStep pc (w.percentileOf usable (w.rtts.take usable.toNat)) := by
  have length : (w.rtts.take k).length = k := List.length_take_of_le (by omega)
  rw [tryEntry, length] at here
  induction left generalizing k pc with
  | zero =>
    rw [Nat.add_zero] at more
    subst more
    refine .last ?_
    rw [here, if_neg (by omega)]
  | succ left ih =>
    rw [if_pos (by omega)] at here
    refine .next here (ih (k := k + 1) (by omega) ?_ (List.length_take_of_le (by omega)))
    have bound : k < w.rtts.length := by omega
    have copied : w.rtts.take k ++ [w.rtts[k]?.getD 0] = w.rtts.take (k + 1) := by
      rw [List.take_add_one, List.getElem?_eq_getElem bound]
      rfl
    have grown : (w.rtts.take (k + 1)).length = k + 1 := List.length_take_of_le (by omega)
    rw [trackStep, length, copied, tryEntry, grown]

theorem returns_tracked {w : PercentileSampleWindow} (sized : w.rtts.length = w.maxSamples) :
    Returns w.trackStep .loadCount w.trackedRttNs := by
  rw [trackedRttNs]
  split
  · refine .last ?_
    rw [trackStep, if_pos (by assumption)]
  · rename_i nonzero
    have loaded : w.trackStep .loadCount =
        w.tryEntry (min w.sampleCount w.maxSamples) (w.rtts.take 0) := by
      rw [trackStep, if_neg nonzero, List.take_zero]
    have copied := returns_copied w (min w.sampleCount w.maxSamples)
      (by rw [sized]; exact Int.min_le_right ..) _ (Nat.zero_add _) loaded
    simpa only [percentileOf, sortBuffer, readIndex, List.length_insertionSort] using copied

theorem finishes_reset (w : PercentileSampleWindow) : Finishes resetStep w .count w.reset :=
  .next rfl (.next rfl (.next rfl (.last rfl)))
end PercentileSampleWindow
end Limen
