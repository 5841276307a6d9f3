import Limen.Gradient2Limit

/-! The configured bounds. Only one of the three ways out of `Update` passes the clamp, so
a cap that starts outside the bounds can stay there. -/
namespace Limen.Gradient2Limit
variable {b : Builder} {g : Gradient2Limit}

/-- The starting cap is one the clamp would leave alone. -/
structure Builder.Bounded (b : Builder) : Prop where
  floor : b.minLimit ≤ b.initialLimit
  ceiling : b.initialLimit ≤ b.maxConcurrency

theorem newLimit_bounds (ordered : b.minLimit ≤ b.maxConcurrency) (estimate gradient queue : ℚ) :
    b.minLimit ≤ newLimit b estimate gradient queue ∧
      newLimit b estimate gradient queue ≤ b.maxConcurrency := by
  rw [newLimit]
  refine ⟨le_max_left _ _, max_le ?_ (min_le_left _ _)⟩
  exact_mod_cast ordered

/-- The clamp moves nothing past a bound that it respects itself. -/
theorem le_newLimit_of {bound estimate gradient queue : ℚ} (ceiling : bound ≤ b.maxConcurrency)
    (smoothed : bound ≤
      estimate * (1 - b.smoothing) + (estimate * gradient + queue) * b.smoothing) :
    bound ≤ newLimit b estimate gradient queue :=
  le_max_of_le_right (le_min ceiling smoothed)

theorem newLimit_le_of {bound estimate gradient queue : ℚ} (floor : b.minLimit ≤ bound)
    (smoothed : estimate * (1 - b.smoothing) + (estimate * gradient + queue) * b.smoothing ≤
      bound) : newLimit b estimate gradient queue ≤ bound :=
  max_le floor ((min_le_right _ _).trans smoothed)

/-- The estimate is within the bounds, and what is published is the estimate. -/
structure InBounds (b : Builder) (g : Gradient2Limit) : Prop where
  floor : b.minLimit ≤ g.estimatedLimit
  ceiling : g.estimatedLimit ≤ b.maxConcurrency
  published : g.limit = truncate g.estimatedLimit

theorem build_inBounds (bounded : b.Bounded) : InBounds b b.build where
  floor := Rat.intCast_le_intCast.mpr bounded.floor
  ceiling := Rat.intCast_le_intCast.mpr bounded.ceiling
  published := (truncate_intCast b.initialLimit).symm

theorem InBounds.onSample (bounds : InBounds b g) (s : Sample) : InBounds b (g.onSample b s) := by
  have ordered : b.minLimit ≤ b.maxConcurrency := by
    exact_mod_cast bounds.floor.trans bounds.ceiling
  suffices estimate : b.minLimit ≤ (g.onSample b s).estimatedLimit ∧
      (g.onSample b s).estimatedLimit ≤ b.maxConcurrency from
    ⟨estimate.1, estimate.2, onSample_limit b g s⟩
  rcases onSample_cases b g s with ⟨_, same, _⟩ | ⟨_, _, ⟨_, same⟩ | ⟨_, moved⟩⟩
  · rw [same]
    exact ⟨bounds.floor, bounds.ceiling⟩
  · rw [same]
    exact ⟨bounds.floor, bounds.ceiling⟩
  · rw [moved]
    exact newLimit_bounds ordered _ _ _

theorem after_inBounds (bounded : b.Bounded) (samples : List Sample) : InBounds b (b.after samples) :=
  Builder.after_invariant (build_inBounds bounded) (fun bounds => bounds.onSample _) samples

/-- Bounds that are integers also hold of the truncated estimate. -/
theorem InBounds.limit (bounds : InBounds b g) :
    b.minLimit ≤ g.limit ∧ g.limit ≤ b.maxConcurrency := by
  rw [bounds.published]
  constructor
  · rw [← truncate_intCast b.minLimit]
    exact truncate_mono bounds.floor
  · rw [← truncate_intCast b.maxConcurrency]
    exact truncate_mono bounds.ceiling

/-- The published cap is within the bounds, before the first sample and after every later
one, exactly if the starting cap is. -/
theorem limit_in_bounds_iff (b : Builder) :
    (∀ samples, b.minLimit ≤ (b.after samples).limit ∧ (b.after samples).limit ≤ b.maxConcurrency) ↔
      b.minLimit ≤ b.initialLimit ∧ b.initialLimit ≤ b.maxConcurrency := by
  constructor
  · intro always
    exact always []
  · rintro ⟨floor, ceiling⟩ samples
    exact (after_inBounds ⟨floor, ceiling⟩ samples).limit

/-- All defaults but for the starting cap, which is below the default floor. -/
def lowStart : Builder := { initialLimit := 5 }

/-- The cap is below the floor before the first sample, after one without a measured RTT and
after one that finds the cap mostly unused. -/
theorem lowStart_below_floor :
    lowStart.minLimit ≤ lowStart.maxConcurrency ∧
      0 ≤ lowStart.smoothing ∧ lowStart.smoothing ≤ 1 ∧ 1 ≤ lowStart.rttTolerance ∧
      1 ≤ lowStart.longWindow ∧
      (lowStart.after []).limit < lowStart.minLimit ∧
      (lowStart.after [⟨0, 0, 5, false⟩, ⟨0, 1000, 1, false⟩]).limit < lowStart.minLimit := by
  refine ⟨by decide, ?_, ?_, ?_, by decide, by decide, ?_⟩
  · norm_num [lowStart]
  · norm_num [lowStart]
  · norm_num [lowStart]
  · decide +kernel
end Limen.Gradient2Limit
