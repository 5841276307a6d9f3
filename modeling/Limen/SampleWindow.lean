import Limen.Limit
import Mathlib.Data.List.Sort
import Mathlib.Data.Rat.Floor

/-! The two sample windows, one call after the other. A compare-and-swap loop then takes
effect in one step, and an update of a counter is the machine operation. -/
namespace Limen

/-- `SampleWindow`. -/
class SampleWindow (W : Type) where
  addSample : W → (rttNs inflight : Int) → (didDrop : Bool) → W
  candidateRttNs : W → Int
  trackedRttNs : W → Int
  maxInflight : W → Int
  sampleCount : W → Int
  didDrop : W → Bool
  reset : W → W

structure AverageSampleWindow where
  sampleCount : Int := 0
  sumRttNs : Int := 0
  minRttNs : Int := int64Max
  maxInflight : Int := 0
  didDrop : Bool := false
  deriving DecidableEq, Repr

namespace AverageSampleWindow

def addSample (w : AverageSampleWindow) (rttNs inflight : Int) (didDrop : Bool) :
    AverageSampleWindow where
  sampleCount := wrap 32 (w.sampleCount + 1)
  sumRttNs := wrap 64 (w.sumRttNs + rttNs)
  minRttNs := if rttNs < w.minRttNs then rttNs else w.minRttNs
  maxInflight := if w.maxInflight < inflight then inflight else w.maxInflight
  didDrop := if didDrop then true else w.didDrop

/-- The division of the source truncates. -/
def trackedRttNs (w : AverageSampleWindow) : Int :=
  if w.sampleCount = 0 then 0 else w.sumRttNs.tdiv w.sampleCount

def reset (_ : AverageSampleWindow) : AverageSampleWindow := {}

instance : SampleWindow AverageSampleWindow where
  addSample := addSample
  candidateRttNs := minRttNs
  trackedRttNs := trackedRttNs
  maxInflight := maxInflight
  sampleCount := sampleCount
  didDrop := didDrop
  reset := reset
end AverageSampleWindow

/-- `std::lround`: to the nearest integer, halves away from zero. -/
def lround (x : ℚ) : Int := if 0 ≤ x then ⌊x + 1 / 2⌋ else -⌊-x + 1 / 2⌋

structure PercentileSampleWindow where
  percentile : ℚ
  maxSamples : Nat
  rtts : List Int
  sampleCount : Int := 0
  minRttNs : Int := int64Max
  maxInflight : Int := 0
  didDrop : Bool := false
  deriving DecidableEq, Repr

namespace PercentileSampleWindow

def construct (percentile : ℚ) (maxSamplesPerWindow : Nat) : PercentileSampleWindow where
  percentile := percentile
  maxSamples := maxSamplesPerWindow
  rtts := List.replicate maxSamplesPerWindow 0

/-- The array index the next sample is stored at, if it is stored. -/
def storeIndex (w : PercentileSampleWindow) : Option Int :=
  if w.sampleCount < w.maxSamples then some w.sampleCount else none

/-- A store outside the array has no meaning in the source and no effect here. -/
def store (rtts : List Int) (index : Option Int) (rttNs : Int) : List Int :=
  match index with
  | none => rtts
  | some index => if 0 ≤ index then rtts.set index.toNat rttNs else rtts

@[simp] theorem length_store (rtts : List Int) (index : Option Int) (rttNs : Int) :
    (store rtts index rttNs).length = rtts.length := by
  cases index with
  | none => rfl
  | some index =>
    rw [store]
    split
    · exact List.length_set
    · rfl

def addSample (w : PercentileSampleWindow) (rttNs inflight : Int) (didDrop : Bool) :
    PercentileSampleWindow where
  percentile := w.percentile
  maxSamples := w.maxSamples
  rtts := store w.rtts w.storeIndex rttNs
  sampleCount := wrap 32 (w.sampleCount + 1)
  minRttNs := if rttNs < w.minRttNs then rttNs else w.minRttNs
  maxInflight := if w.maxInflight < inflight then inflight else w.maxInflight
  didDrop := if didDrop then true else w.didDrop

/-- The sorted snapshot of the entries in use. -/
def sortBuffer (w : PercentileSampleWindow) : List Int :=
  (w.rtts.take (min w.sampleCount w.maxSamples).toNat).insertionSort (· ≤ ·)

/-- The zero-based position of the percentile in the sorted snapshot. -/
def readIndex (w : PercentileSampleWindow) : Int :=
  let usable := min w.sampleCount w.maxSamples
  let zeroBased := lround (usable * w.percentile) - 1
  max 0 (min zeroBased (w.sortBuffer.length - 1))

def trackedRttNs (w : PercentileSampleWindow) : Int :=
  if w.sampleCount = 0 then 0 else (w.sortBuffer[w.readIndex.toNat]?).getD 0

/-- The entries of the array stay as they are. -/
def reset (w : PercentileSampleWindow) : PercentileSampleWindow where
  percentile := w.percentile
  maxSamples := w.maxSamples
  rtts := w.rtts

instance : SampleWindow PercentileSampleWindow where
  addSample := addSample
  candidateRttNs := minRttNs
  trackedRttNs := trackedRttNs
  maxInflight := maxInflight
  sampleCount := sampleCount
  didDrop := didDrop
  reset := reset
end PercentileSampleWindow
end Limen
