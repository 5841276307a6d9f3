import Mathlib.Algebra.Order.Field.Rat
import Mathlib.Tactic.Linarith
import Mathlib.Tactic.Positivity
import Mathlib.Tactic.FieldSimp
import Mathlib.Tactic.Ring

/-! `ExpAvgMeasurement` in exact rational arithmetic: a running mean while it warms up, then
an exponential average. The mean is taken of a sum that `Update` does not touch. -/
namespace Limen

structure ExpAvgMeasurement where
  value : ℚ := 0
  sum : ℚ := 0
  count : Nat := 0
  window : Int
  warmupWindow : Int
  deriving DecidableEq, Repr

namespace ExpAvgMeasurement

def steadyStateFactor (n : Int) : ℚ := 2 / (n + 1)

/-- `Add`; what it returns is the new `value`. -/
def add (m : ExpAvgMeasurement) (sample : ℚ) : ExpAvgMeasurement :=
  if m.count < m.warmupWindow then
    { m with
      count := m.count + 1
      sum := m.sum + sample
      value := (m.sum + sample) / (m.count + 1 : Nat) }
  else
    let factor := steadyStateFactor m.window
    { m with value := m.value * (1 - factor) + sample * factor }

def update (m : ExpAvgMeasurement) (operation : ℚ → ℚ) : ExpAvgMeasurement :=
  { m with value := operation m.value }

theorem steadyStateFactor_pos {n : Int} (window : 1 ≤ n) : 0 < steadyStateFactor n := by
  have : (1 : ℚ) ≤ n := by exact_mod_cast window
  rw [steadyStateFactor]
  positivity

theorem steadyStateFactor_le_one {n : Int} (window : 1 ≤ n) : steadyStateFactor n ≤ 1 := by
  have : (1 : ℚ) ≤ n := by exact_mod_cast window
  rw [steadyStateFactor, div_le_one (by positivity)]
  linarith

theorem add_warmup {m : ExpAvgMeasurement} (warming : m.count < m.warmupWindow) (sample : ℚ) :
    m.add sample = { m with
      count := m.count + 1, sum := m.sum + sample, value := (m.sum + sample) / (m.count + 1 : Nat) } :=
  if_pos warming

theorem add_steady {m : ExpAvgMeasurement} (steady : m.warmupWindow ≤ m.count) (sample : ℚ) :
    m.add sample = { m with
      value := m.value * (1 - steadyStateFactor m.window) + sample * steadyStateFactor m.window } :=
  if_neg (Int.not_lt.mpr steady)

@[simp] theorem add_window (m : ExpAvgMeasurement) (sample : ℚ) :
    (m.add sample).window = m.window := by
  rw [add]
  split <;> rfl

@[simp] theorem add_warmupWindow (m : ExpAvgMeasurement) (sample : ℚ) :
    (m.add sample).warmupWindow = m.warmupWindow := by
  rw [add]
  split <;> rfl

/-- What positive samples and compressions keep: the value never runs ahead of the mean. -/
structure Lags (m : ExpAvgMeasurement) : Prop where
  value_nonneg : 0 ≤ m.value
  sum_nonneg : 0 ≤ m.sum
  behind : m.count < m.warmupWindow → m.value * m.count ≤ m.sum

theorem Lags.add {m : ExpAvgMeasurement} (lags : m.Lags) (window : 1 ≤ m.window) {sample : ℚ}
    (positive : 0 < sample) : (m.add sample).Lags := by
  have value := lags.value_nonneg
  have sum := lags.sum_nonneg
  by_cases warming : m.count < m.warmupWindow
  · have counted : (0 : ℚ) < (m.count + 1 : Nat) := by exact_mod_cast m.count.succ_pos
    rw [add_warmup warming]
    refine ⟨by positivity, by positivity, fun _ => ?_⟩
    dsimp only
    rw [div_mul_cancel₀ _ counted.ne']
  · rw [Int.not_lt] at warming
    rw [add_steady warming]
    have factor := steadyStateFactor_pos window
    have rest : 0 ≤ 1 - steadyStateFactor m.window := sub_nonneg.mpr (steadyStateFactor_le_one window)
    exact ⟨by positivity, sum, fun before => absurd warming (Int.not_le.mpr before)⟩

theorem Lags.compress {m : ExpAvgMeasurement} (lags : m.Lags) {factor : ℚ} (nonneg : 0 ≤ factor)
    (shrinks : factor ≤ 1) : (m.update (· * factor)).Lags := by
  have value := lags.value_nonneg
  refine ⟨mul_nonneg value nonneg, lags.sum_nonneg, fun warming => ?_⟩
  calc m.value * factor * m.count ≤ m.value * m.count := by
        gcongr
        exact mul_le_of_le_one_right value shrinks
    _ ≤ m.sum := lags.behind warming

/-- Once a sample has been fed, the value is between bounds on the samples, and so is the
mean that warming up is taken of. -/
structure Between (low high : ℚ) (m : ExpAvgMeasurement) : Prop where
  sum_low : m.count * low ≤ m.sum
  sum_high : m.sum ≤ m.count * high
  value : 0 < m.count → low ≤ m.value ∧ m.value ≤ high

theorem Between.add {m : ExpAvgMeasurement} {low high sample : ℚ} (between : m.Between low high)
    (window : 1 ≤ m.window) (warmup : 0 < m.warmupWindow) (above : low ≤ sample)
    (below : sample ≤ high) : (m.add sample).Between low high ∧ 0 < (m.add sample).count := by
  have sumLow := between.sum_low
  have sumHigh := between.sum_high
  by_cases warming : m.count < m.warmupWindow
  · have counted : (0 : ℚ) < (m.count + 1 : Nat) := by exact_mod_cast m.count.succ_pos
    have more : ((m.count + 1 : Nat) : ℚ) = m.count + 1 := by push_cast; rfl
    rw [add_warmup warming]
    refine ⟨⟨?_, ?_, fun _ => ⟨?_, ?_⟩⟩, m.count.succ_pos⟩
    · dsimp only
      rw [more]
      linarith
    · dsimp only
      rw [more]
      linarith
    · dsimp only
      rw [le_div_iff₀ counted, more]
      linarith
    · dsimp only
      rw [div_le_iff₀ counted, more]
      linarith
  · rw [Int.not_lt] at warming
    have fed : 0 < m.count := by omega
    obtain ⟨low', high'⟩ := between.value fed
    have factor := steadyStateFactor_pos window
    have rest : 0 ≤ 1 - steadyStateFactor m.window :=
      sub_nonneg.mpr (steadyStateFactor_le_one window)
    rw [add_steady warming]
    refine ⟨⟨sumLow, sumHigh, fun _ => ⟨?_, ?_⟩⟩, fed⟩
    · calc low = low * (1 - steadyStateFactor m.window) + low * steadyStateFactor m.window := by ring
        _ ≤ _ := by
          dsimp only
          gcongr
    · calc m.value * (1 - steadyStateFactor m.window) + sample * steadyStateFactor m.window
          ≤ high * (1 - steadyStateFactor m.window) + high * steadyStateFactor m.window := by gcongr
        _ = high := by ring

/-- The first sample is its own mean. -/
theorem add_first {m : ExpAvgMeasurement} (empty : m.count = 0) (unfed : m.sum = 0)
    (warming : 0 < m.warmupWindow) (sample : ℚ) : (m.add sample).value = sample := by
  rw [add_warmup (by rw [empty]; exact_mod_cast warming), empty, unfed]
  simp

/-- A sample within the tolerance of the value before it is within the tolerance of the
value it is folded into. -/
theorem le_mul_add {m : ExpAvgMeasurement} (lags : m.Lags) (window : 1 ≤ m.window)
    {sample tolerance : ℚ} (positive : 0 < sample) (tolerant : 1 ≤ tolerance)
    (within : sample ≤ tolerance * m.value) : sample ≤ tolerance * (m.add sample).value := by
  have own : sample ≤ tolerance * sample := le_mul_of_one_le_left positive.le tolerant
  by_cases warming : m.count < m.warmupWindow
  · rw [add_warmup warming]
    have counted : (0 : ℚ) < (m.count + 1 : Nat) := by exact_mod_cast m.count.succ_pos
    dsimp only
    rw [← mul_div_assoc, le_div_iff₀ counted]
    push_cast
    have mean : sample * m.count ≤ tolerance * m.sum := by
      calc sample * m.count ≤ tolerance * m.value * m.count := by gcongr
        _ = tolerance * (m.value * m.count) := mul_assoc ..
        _ ≤ tolerance * m.sum := by
          gcongr
          exact lags.behind warming
    linarith
  · rw [add_steady (Int.not_lt.mp warming)]
    have factor := steadyStateFactor_pos window
    have rest : 0 ≤ 1 - steadyStateFactor m.window := sub_nonneg.mpr (steadyStateFactor_le_one window)
    calc sample
        = sample * (1 - steadyStateFactor m.window) + sample * steadyStateFactor m.window := by ring
      _ ≤ tolerance * m.value * (1 - steadyStateFactor m.window) +
          tolerance * sample * steadyStateFactor m.window := by gcongr
      _ = _ := by ring
end ExpAvgMeasurement
end Limen
