import Limen.AbstractLimit
import Limen.ExpAvgMeasurement
import Mathlib.Data.Rat.Floor
import Mathlib.Data.Nat.Sqrt

/-! `Gradient2Limit` in exact rational arithmetic. The histograms record values that no
decision reads and are left out. -/
namespace Limen.Gradient2Limit

/-- `static_cast<int>` of a floating-point value: towards zero. -/
def truncate (x : ℚ) : Int := if 0 ≤ x then ⌊x⌋ else ⌈x⌉

/-- The smallest integer whose square is at least `n`. -/
def ceilSqrt (n : Nat) : Nat := if n.sqrt * n.sqrt = n then n.sqrt else n.sqrt + 1

def defaultSqrtQueueSize (currentLimit : Int) : Int :=
  max 1 (ceilSqrt (max 0 currentLimit).toNat)

/-- The settings of `Gradient2Limit::Builder`, with its defaults. `Build` checks none of
them. -/
structure Builder where
  initialLimit : Int := 20
  minLimit : Int := 20
  maxConcurrency : Int := 200
  queueSizeFn : Int → Int := defaultSqrtQueueSize
  rttTolerance : ℚ := 3 / 2
  smoothing : ℚ := 1 / 5
  longWindow : Int := 600

end Gradient2Limit

/-- The mutable state of a `Gradient2Limit`. -/
structure Gradient2Limit extends AbstractLimit where
  estimatedLimit : ℚ
  longRtt : ExpAvgMeasurement
  deriving DecidableEq, Repr

namespace Gradient2Limit

def Builder.build (b : Builder) : Gradient2Limit where
  toAbstractLimit := .construct b.initialLimit
  estimatedLimit := b.initialLimit
  longRtt := { window := b.longWindow, warmupWindow := 10 }

/-- The long-term RTT is more than twice the short-window one: it recovers from a spike. -/
def correctDrift (longRtt : ExpAvgMeasurement) (shortRtt : ℚ) : ExpAvgMeasurement :=
  if longRtt.value / shortRtt > 2 then longRtt.update (· * (95 / 100)) else longRtt

@[simp] theorem correctDrift_count (m : ExpAvgMeasurement) (shortRtt : ℚ) :
    (correctDrift m shortRtt).count = m.count := by
  rw [correctDrift]
  split <;> rfl

@[simp] theorem correctDrift_window (m : ExpAvgMeasurement) (shortRtt : ℚ) :
    (correctDrift m shortRtt).window = m.window := by
  rw [correctDrift]
  split <;> rfl

@[simp] theorem correctDrift_warmupWindow (m : ExpAvgMeasurement) (shortRtt : ℚ) :
    (correctDrift m shortRtt).warmupWindow = m.warmupWindow := by
  rw [correctDrift]
  split <;> rfl

def gradient (b : Builder) (longRtt shortRtt : ℚ) : ℚ :=
  max (1 / 2) (min 1 (b.rttTolerance * longRtt / shortRtt))

/-- The scaled, smoothed and clamped estimate of `Update`'s last branch. -/
def newLimit (b : Builder) (estimatedLimit gradient queueSize : ℚ) : ℚ :=
  let newLimit := estimatedLimit * gradient + queueSize
  let newLimit := estimatedLimit * (1 - b.smoothing) + newLimit * b.smoothing
  max b.minLimit (min b.maxConcurrency newLimit)

/-- `Update`: the cap it returns and the state it leaves. -/
def update (b : Builder) (g : Gradient2Limit) (rttNs inflight : Int) : Gradient2Limit × Int :=
  if rttNs ≤ 0 then (g, truncate g.estimatedLimit)
  else
    let longRtt := g.longRtt.add rttNs
    let queueSize := b.queueSizeFn (truncate g.estimatedLimit)
    let corrected := { g with longRtt := correctDrift longRtt rttNs }
    -- App-limited: less than half of the cap is in use, which says nothing about capacity.
    if (inflight : ℚ) < g.estimatedLimit / 2 then (corrected, truncate g.estimatedLimit)
    else
      let estimate := newLimit b g.estimatedLimit (gradient b longRtt.value rttNs) queueSize
      ({ corrected with estimatedLimit := estimate }, truncate estimate)

/-- `AbstractLimit::OnSample`. -/
def onSample (b : Builder) (g : Gradient2Limit) (s : Sample) : Gradient2Limit :=
  let updated := g.update b s.rttNs s.inflight
  { updated.1 with toAbstractLimit := updated.1.setLimitLocked updated.2 }

/-- The state after a sequence of samples. -/
def Builder.after (b : Builder) (samples : List Sample) : Gradient2Limit :=
  samples.foldl (onSample b) b.build

theorem Builder.after_concat (b : Builder) (samples : List Sample) (s : Sample) :
    b.after (samples ++ [s]) = (b.after samples).onSample b s :=
  List.foldl_concat ..

/-- What every sample keeps holds after all of them. -/
theorem Builder.after_invariant {P : Gradient2Limit → Prop} {b : Builder} (initial : P b.build)
    (keeps : ∀ {g s}, P g → P (g.onSample b s)) (samples : List Sample) : P (b.after samples) := by
  induction samples using List.reverseRecOn with
  | nil => exact initial
  | append_singleton samples s ih =>
    rw [Builder.after_concat]
    exact keeps ih

/-- The estimate and the long-term RTT move by one of three branches. -/
theorem onSample_cases (b : Builder) (g : Gradient2Limit) (s : Sample) :
    (s.rttNs ≤ 0 ∧ (g.onSample b s).estimatedLimit = g.estimatedLimit ∧
        (g.onSample b s).longRtt = g.longRtt) ∨
      0 < s.rttNs ∧ (g.onSample b s).longRtt = correctDrift (g.longRtt.add s.rttNs) s.rttNs ∧
        ((s.inflight < g.estimatedLimit / 2 ∧
            (g.onSample b s).estimatedLimit = g.estimatedLimit) ∨
          (g.estimatedLimit / 2 ≤ s.inflight ∧ (g.onSample b s).estimatedLimit =
            newLimit b g.estimatedLimit (gradient b (g.longRtt.add s.rttNs).value s.rttNs)
              (b.queueSizeFn (truncate g.estimatedLimit)))) := by
  by_cases measured : s.rttNs ≤ 0
  · exact .inl ⟨measured, by simp [onSample, update, measured], by simp [onSample, update, measured]⟩
  · refine .inr ⟨Int.not_le.mp measured, ?_, ?_⟩
    · simp only [onSample, update, if_neg measured]
      split <;> rfl
    · by_cases limited : s.inflight < g.estimatedLimit / 2
      · exact .inl ⟨limited, by simp [onSample, update, measured, limited]⟩
      · exact .inr ⟨not_lt.mp limited, by simp [onSample, update, measured, limited]⟩

/-- In every branch the published cap is the truncated estimate. -/
theorem onSample_limit (b : Builder) (g : Gradient2Limit) (s : Sample) :
    (g.onSample b s).limit = truncate (g.onSample b s).estimatedLimit := by
  simp only [onSample, update, AbstractLimit.setLimitLocked_limit]
  split
  · rfl
  · split <;> rfl

theorem truncate_mono {x y : ℚ} (le : x ≤ y) : truncate x ≤ truncate y := by
  rw [truncate, truncate]
  split
  · rename_i nonneg
    rw [if_pos (nonneg.trans le)]
    exact Int.floor_mono le
  · rename_i negative
    split
    · rename_i nonneg
      have below : ⌈x⌉ ≤ 0 := Int.ceil_le.mpr (by exact_mod_cast (not_le.mp negative).le)
      exact below.trans (Int.floor_nonneg.mpr nonneg)
    · exact Int.ceil_mono le

@[simp] theorem truncate_intCast (n : Int) : truncate n = n := by
  rw [truncate]
  split
  · exact Int.floor_intCast n
  · exact Int.ceil_intCast n
end Gradient2Limit
end Limen
