import Limen.SampleWindow

/-! The windowing decorator: two window slots that take turns, and a deadline. -/
namespace Limen
namespace WindowedLimit

/-- The settings of `WindowedLimit::Builder`, with its defaults. -/
structure Builder where
  minWindowTimeNs : Int := 1000000000
  maxWindowTimeNs : Int := 1000000000
  windowSize : Int := 10
  minRttThresholdNs : Int := 100000

/-- Settings that `Build` accepts. -/
structure Config extends Builder where
  minWindowTime_pos : 0 < minWindowTimeNs
  window_ordered : minWindowTimeNs ≤ maxWindowTimeNs
  windowSize_pos : 1 ≤ windowSize
  threshold_nonneg : 0 ≤ minRttThresholdNs

def Builder.build (b : Builder) : Except String Config :=
  if minPos : b.minWindowTimeNs ≤ 0 then
    .error "WindowedLimit::Builder::MinWindowTimeNs must be positive"
  else if b.maxWindowTimeNs ≤ 0 then
    .error "WindowedLimit::Builder::MaxWindowTimeNs must be positive"
  else if inverted : b.maxWindowTimeNs < b.minWindowTimeNs then
    .error "WindowedLimit::Builder::MinWindowTimeNs must not exceed MaxWindowTimeNs"
  else if small : b.windowSize < 1 then
    .error "WindowedLimit::Builder::WindowSize must be at least 1"
  else if negative : b.minRttThresholdNs < 0 then
    .error "WindowedLimit::Builder::MinRttThresholdNs must be non-negative"
  else .ok { b with
    minWindowTime_pos := by omega
    window_ordered := by omega
    windowSize_pos := by omega
    threshold_nonneg := by omega }

/-- The configurations are exactly what `Build` can return. -/
theorem build_eq (c : Config) : c.toBuilder.build = .ok c := by
  have minPos := c.minWindowTime_pos
  have ordered := c.window_ordered
  have size := c.windowSize_pos
  have threshold := c.threshold_nonneg
  simp only [Builder.build]
  rw [dif_neg (by omega), if_neg (by omega), dif_neg (by omega), dif_neg (by omega),
    dif_neg (by omega)]

end WindowedLimit

/-- The slots are the numerals of `Fin 2`. -/
instance twoSlots : NeZero 2 := ⟨by decide⟩

/-- The mutable state of a `WindowedLimit`. -/
structure WindowedLimit (W : Type) where
  slots : Fin 2 → W
  activeIndex : Fin 2 := 0
  nextUpdateTimeNs : Int := 0

namespace WindowedLimit
variable {W : Type} [SampleWindow W]

/-- `Build` calls the factory once for each slot. -/
def construct (factory : W) : WindowedLimit W := { slots := fun _ => factory }

/-- The length of the window that starts now. -/
def adaptiveNs (c : Config) (candidateRtt : Int) : Int :=
  if candidateRtt = int64Max then c.minWindowTimeNs
  else min (max (wrap 64 (candidateRtt * 2)) c.minWindowTimeNs) c.maxWindowTimeNs

/-- The boundary work, under `boundary_mu_`: read the active slot, flip, schedule, drive
the delegate and reset the slot that was read. The second component is the delegate call. -/
def boundary (c : Config) (w : WindowedLimit W) (startTimeNs endTimeNs : Int) :
    WindowedLimit W × Option Sample :=
  let completed := w.slots w.activeIndex
  let candidateRtt := SampleWindow.candidateRttNs completed
  let windowReady := candidateRtt ≠ int64Max ∧ c.windowSize ≤ SampleWindow.sampleCount completed
  ({ slots := Function.update w.slots w.activeIndex (SampleWindow.reset completed)
     activeIndex := 1 - w.activeIndex
     nextUpdateTimeNs := wrap 64 (endTimeNs + adaptiveNs c candidateRtt) },
    if windowReady then
      some ⟨startTimeNs, SampleWindow.trackedRttNs completed, SampleWindow.maxInflight completed,
        SampleWindow.didDrop completed⟩
    else none)

/-- `OnSample` with no other call in progress: the lock is free, and the deadline that is
read again under it has not moved. -/
def onSample (c : Config) (w : WindowedLimit W) (s : Sample) : WindowedLimit W × Option Sample :=
  if s.rttNs < c.minRttThresholdNs then (w, none)
  else
    let endTimeNs := wrap 64 (s.startTimeNs + s.rttNs)
    let slot := SampleWindow.addSample (w.slots w.activeIndex) s.rttNs s.inflight s.didDrop
    let w := { w with slots := Function.update w.slots w.activeIndex slot }
    if endTimeNs ≤ w.nextUpdateTimeNs then (w, none)
    else w.boundary c s.startTimeNs endTimeNs

end WindowedLimit
end Limen
