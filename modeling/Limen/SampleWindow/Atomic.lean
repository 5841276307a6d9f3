import Limen.SampleWindow

/-! The two sample windows one atomic operation at a time. Each method has program points of
its own; an operation takes the point it is at and leads to the next one. -/
namespace Limen

/-- The points of `AddSample`, which the two windows share. What the second one records is
the sum in the one and an array entry in the other. -/
inductive AddPoint where
  | count
  | record (index : Int)
  | loadMin
  | exchangeMin (current : Int)
  | loadMax
  | exchangeMax (current : Int)
  | drop
  deriving DecidableEq, Repr

/-- The two loops and the drop flag, which come last. -/
def AddPoint.late : AddPoint → Bool
  | .count | .record _ => false
  | _ => true

/-- The points of `TrackedRttNs`; `buffer` is what the copying loop has pushed. -/
inductive TrackPoint where
  | loadCount
  | loadSum (count : Int)
  | loadEntry (usable : Int) (buffer : List Int)
  deriving DecidableEq, Repr

/-- The stores of `Reset`. -/
inductive ResetPoint where
  | count | sum | min | max | drop
  deriving DecidableEq, Repr

/-- A window whose methods are given by their atomic operations. `none` is a return. The
Boolean lets a weak compare-and-exchange fail spuriously, and the methods that are a single
load are those of `SampleWindow`. -/
class AtomicWindow (W : Type) (α τ ρ : outParam Type) extends SampleWindow W where
  addEntry : α
  addStep : W → Sample → Bool → α → W × Option α
  trackEntry : τ
  trackStep : W → τ → τ ⊕ Int
  resetEntry : ρ
  resetStep : W → ρ → W × Option ρ

/-- The fields that both windows update in the same way. -/
structure Extremes where
  minRttNs : Int
  maxInflight : Int
  didDrop : Bool

namespace Extremes

/-- The condition of the first loop. -/
def tryMin (s : Sample) (current : Int) : Option AddPoint :=
  if s.rttNs < current then some (.exchangeMin current) else some .loadMax

/-- The condition of the second loop, and of what follows it. -/
def tryMax (s : Sample) (current : Int) : Option AddPoint :=
  if current < s.inflight then some (.exchangeMax current)
  else if s.didDrop then some .drop else none

/-- A failed exchange leaves in `current` what it has found. -/
def addStep (x : Extremes) (s : Sample) (spurious : Bool) : AddPoint → Extremes × Option AddPoint
  | .loadMin => (x, tryMin s x.minRttNs)
  | .exchangeMin current =>
    if spurious ∨ x.minRttNs ≠ current then (x, tryMin s x.minRttNs)
    else ({ x with minRttNs := s.rttNs }, some .loadMax)
  | .loadMax => (x, tryMax s x.maxInflight)
  | .exchangeMax current =>
    if spurious ∨ x.maxInflight ≠ current then (x, tryMax s x.maxInflight)
    else ({ x with maxInflight := s.inflight }, if s.didDrop then some .drop else none)
  | .drop => ({ x with didDrop := true }, none)
  -- Points before the first loop, where the windows differ.
  | .count | .record _ => (x, none)

theorem addStep_late {x : Extremes} {s : Sample} {spurious : Bool} {pc pc' : AddPoint}
    (next : (x.addStep s spurious pc).2 = some pc') : pc'.late = true := by
  have tried (current : Int) (there : tryMin s current = some pc') : pc'.late = true := by
    rw [tryMin] at there
    split at there <;> cases there <;> rfl
  have tried' (current : Int) (there : tryMax s current = some pc') : pc'.late = true := by
    rw [tryMax] at there
    split at there
    · cases there
      rfl
    · split at there <;> cases there
      rfl
  cases pc with
  | loadMin => exact tried _ next
  | exchangeMin current =>
    simp only [addStep] at next
    split at next
    · exact tried _ next
    · cases next
      rfl
  | loadMax => exact tried' _ next
  | exchangeMax current =>
    simp only [addStep] at next
    split at next
    · exact tried' _ next
    · dsimp only at next
      split at next <;> cases next
      rfl
  | _ => contradiction
end Extremes

namespace AverageSampleWindow

def extremes (w : AverageSampleWindow) : Extremes := ⟨w.minRttNs, w.maxInflight, w.didDrop⟩

def setExtremes (w : AverageSampleWindow) (x : Extremes) : AverageSampleWindow :=
  { w with minRttNs := x.minRttNs, maxInflight := x.maxInflight, didDrop := x.didDrop }

def addStep (w : AverageSampleWindow) (s : Sample) (spurious : Bool) :
    AddPoint → AverageSampleWindow × Option AddPoint
  | .count => ({ w with sampleCount := wrap 32 (w.sampleCount + 1) }, some (.record w.sampleCount))
  | .record _ => ({ w with sumRttNs := wrap 64 (w.sumRttNs + s.rttNs) }, some .loadMin)
  | point =>
    let (x, next) := w.extremes.addStep s spurious point
    (w.setExtremes x, next)

def trackStep (w : AverageSampleWindow) : TrackPoint → TrackPoint ⊕ Int
  | .loadCount => if w.sampleCount = 0 then .inr 0 else .inl (.loadSum w.sampleCount)
  | .loadSum count => .inr (w.sumRttNs.tdiv count)
  -- No point of this window.
  | .loadEntry _ _ => .inr 0

def resetStep (w : AverageSampleWindow) : ResetPoint → AverageSampleWindow × Option ResetPoint
  | .count => ({ w with sampleCount := 0 }, some .sum)
  | .sum => ({ w with sumRttNs := 0 }, some .min)
  | .min => ({ w with minRttNs := int64Max }, some .max)
  | .max => ({ w with maxInflight := 0 }, some .drop)
  | .drop => ({ w with didDrop := false }, none)

theorem addStep_of_late (w : AverageSampleWindow) (s : Sample) (spurious : Bool) {pc : AddPoint}
    (late : pc.late = true) : w.addStep s spurious pc =
      (w.setExtremes (w.extremes.addStep s spurious pc).1, (w.extremes.addStep s spurious pc).2) := by
  cases pc <;> first | contradiction | rfl

theorem addStep_cases {w slot : AverageSampleWindow} {s : Sample} {spurious : Bool} {pc : AddPoint}
    {next : Option AddPoint} (added : w.addStep s spurious pc = (slot, next)) :
    (pc = .count ∧ slot = { w with sampleCount := wrap 32 (w.sampleCount + 1) } ∧
        next = some (.record w.sampleCount)) ∨
      (∃ index, pc = .record index ∧ slot = { w with sumRttNs := wrap 64 (w.sumRttNs + s.rttNs) } ∧
        next = some .loadMin) ∨
      (pc.late = true ∧ (∃ x, slot = w.setExtremes x) ∧
        ∀ pc', next = some pc' → pc'.late = true) := by
  cases pc with
  | count =>
    cases added
    exact .inl ⟨rfl, rfl, rfl⟩
  | record index =>
    cases added
    exact .inr (.inl ⟨index, rfl, rfl, rfl⟩)
  | _ =>
    rw [addStep_of_late w s spurious rfl] at added
    cases added
    exact .inr (.inr ⟨rfl, ⟨_, rfl⟩, fun _ next => Extremes.addStep_late next⟩)

instance : AtomicWindow AverageSampleWindow AddPoint TrackPoint ResetPoint where
  addEntry := .count
  addStep := addStep
  trackEntry := .loadCount
  trackStep := trackStep
  resetEntry := .count
  resetStep := resetStep
end AverageSampleWindow

namespace PercentileSampleWindow

def extremes (w : PercentileSampleWindow) : Extremes := ⟨w.minRttNs, w.maxInflight, w.didDrop⟩

def setExtremes (w : PercentileSampleWindow) (x : Extremes) : PercentileSampleWindow :=
  { w with minRttNs := x.minRttNs, maxInflight := x.maxInflight, didDrop := x.didDrop }

def addStep (w : PercentileSampleWindow) (s : Sample) (spurious : Bool) :
    AddPoint → PercentileSampleWindow × Option AddPoint
  | .count => ({ w with sampleCount := wrap 32 (w.sampleCount + 1) },
      some (if w.sampleCount < w.maxSamples then .record w.sampleCount else .loadMin))
  | .record index => ({ w with rtts := store w.rtts (some index) s.rttNs }, some .loadMin)
  | point =>
    let (x, next) := w.extremes.addStep s spurious point
    (w.setExtremes x, next)

/-- What `TrackedRttNs` returns once the buffer is filled. -/
def percentileOf (w : PercentileSampleWindow) (usable : Int) (buffer : List Int) : Int :=
  let zeroBased := lround (usable * w.percentile) - 1
  let clamped := max 0 (min zeroBased (buffer.length - 1))
  ((buffer.insertionSort (· ≤ ·))[clamped.toNat]?).getD 0

/-- The condition of the copying loop. -/
def tryEntry (w : PercentileSampleWindow) (usable : Int) (buffer : List Int) : TrackPoint ⊕ Int :=
  if buffer.length < usable then .inl (.loadEntry usable buffer)
  else .inr (w.percentileOf usable buffer)

def trackStep (w : PercentileSampleWindow) : TrackPoint → TrackPoint ⊕ Int
  | .loadCount =>
    if w.sampleCount = 0 then .inr 0 else w.tryEntry (min w.sampleCount w.maxSamples) []
  | .loadEntry usable buffer => w.tryEntry usable (buffer ++ [w.rtts[buffer.length]?.getD 0])
  -- No point of this window.
  | .loadSum _ => .inr 0

def resetStep (w : PercentileSampleWindow) :
    ResetPoint → PercentileSampleWindow × Option ResetPoint
  | .count => ({ w with sampleCount := 0 }, some .min)
  | .min => ({ w with minRttNs := int64Max }, some .max)
  | .max => ({ w with maxInflight := 0 }, some .drop)
  | .drop => ({ w with didDrop := false }, none)
  -- No point of this window.
  | .sum => (w, some .min)

theorem store_self {rtts : List Int} {n : Nat} (inside : n < rtts.length) (rttNs : Int) :
    (store rtts (some (n : Int)) rttNs)[n]? = some rttNs := by
  rw [store, if_pos (Int.natCast_nonneg n), Int.toNat_natCast, List.getElem?_set_self inside]

theorem store_other {index : Int} {n : Nat} (other : (n : Int) ≠ index) (rtts : List Int)
    (rttNs : Int) : (store rtts (some index) rttNs)[n]? = rtts[n]? := by
  rw [store]
  split
  · rw [List.getElem?_set_ne (by omega)]
  · rfl

theorem addStep_of_late (w : PercentileSampleWindow) (s : Sample) (spurious : Bool) {pc : AddPoint}
    (late : pc.late = true) : w.addStep s spurious pc =
      (w.setExtremes (w.extremes.addStep s spurious pc).1, (w.extremes.addStep s spurious pc).2) := by
  cases pc <;> first | contradiction | rfl

theorem addStep_cases {w slot : PercentileSampleWindow} {s : Sample} {spurious : Bool}
    {pc : AddPoint} {next : Option AddPoint} (added : w.addStep s spurious pc = (slot, next)) :
    (pc = .count ∧ slot = { w with sampleCount := wrap 32 (w.sampleCount + 1) } ∧
        next = some (if w.sampleCount < w.maxSamples then .record w.sampleCount else .loadMin)) ∨
      (∃ index, pc = .record index ∧ slot = { w with rtts := store w.rtts (some index) s.rttNs } ∧
        next = some .loadMin) ∨
      (pc.late = true ∧ (∃ x, slot = w.setExtremes x) ∧
        ∀ pc', next = some pc' → pc'.late = true) := by
  cases pc with
  | count =>
    cases added
    exact .inl ⟨rfl, rfl, rfl⟩
  | record index =>
    cases added
    exact .inr (.inl ⟨index, rfl, rfl, rfl⟩)
  | _ =>
    rw [addStep_of_late w s spurious rfl] at added
    cases added
    exact .inr (.inr ⟨rfl, ⟨_, rfl⟩, fun _ next => Extremes.addStep_late next⟩)

instance : AtomicWindow PercentileSampleWindow AddPoint TrackPoint ResetPoint where
  addEntry := .count
  addStep := addStep
  trackEntry := .loadCount
  trackStep := trackStep
  resetEntry := .count
  resetStep := resetStep
end PercentileSampleWindow
end Limen
