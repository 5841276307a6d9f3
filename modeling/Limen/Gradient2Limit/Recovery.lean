import Limen.Gradient2Limit.Adaptation

/-! The way back to the ceiling. While every sample is within the tolerance of the long-term
RTT and the cap is in use, the gradient stays at one, however the long-term RTT moves, and
the estimate climbs by the smoothed queue size each time. -/
namespace Limen.Gradient2Limit
open ExpAvgMeasurement
variable {b : Builder} {g : Gradient2Limit} {s : Sample}

/-- A sample that lets the cap grow, in the state it finds. -/
structure Calm (b : Builder) (g : Gradient2Limit) (s : Sample) : Prop where
  measured : 0 < s.rttNs
  tolerated : s.rttNs ≤ b.rttTolerance * g.longRtt.value
  used : g.estimatedLimit / 2 ≤ s.inflight

theorem newLimit_full {estimate queue : ℚ} (tuned : b.Tuned) (floor : b.minLimit ≤ estimate)
    (ceiling : estimate ≤ b.maxConcurrency) (nonneg : 0 ≤ queue) :
    newLimit b estimate 1 queue = min (b.maxConcurrency : ℚ) (estimate + b.smoothing * queue) := by
  have grows : estimate ≤ estimate + b.smoothing * queue :=
    le_add_of_nonneg_right (mul_nonneg tuned.smoothing_nonneg nonneg)
  have smoothed : estimate * (1 - b.smoothing) + (estimate * 1 + queue) * b.smoothing =
      estimate + b.smoothing * queue := by ring
  rw [newLimit, smoothed]
  exact max_eq_right (le_min (floor.trans ceiling) (floor.trans grows))

theorem onSample_calm (tuned : b.Tuned) (steady : Steady b g) (calm : Calm b g s)
    (queue : 0 ≤ b.queueSizeFn (truncate g.estimatedLimit)) :
    (g.onSample b s).estimatedLimit = min (b.maxConcurrency : ℚ)
      (g.estimatedLimit + b.smoothing * b.queueSizeFn (truncate g.estimatedLimit)) := by
  have positive : (0 : ℚ) < s.rttNs := by exact_mod_cast calm.measured
  have window : 1 ≤ g.longRtt.window := by
    rw [steady.window]
    exact tuned.window
  rcases onSample_cases b g s with ⟨unmeasured, _⟩ | ⟨_, _, ⟨limited, _⟩ | ⟨_, moved⟩⟩
  · exact absurd calm.measured (Int.not_lt.mpr unmeasured)
  · exact absurd calm.used (not_le.mpr limited)
  · have within := le_mul_add steady.lags window positive tuned.tolerant calm.tolerated
    rw [moved, gradient_eq_one positive within]
    exact newLimit_full tuned steady.floor steady.ceiling (by exact_mod_cast queue)

/-- A ramp that is cut off at every step is one that is cut off at the end. -/
theorem min_ramp_succ {ceiling start rise : ℚ} (nonneg : 0 ≤ rise) (n : Nat) :
    min ceiling (start + (n + 1 : Nat) * rise) =
      min ceiling (min ceiling (start + n * rise) + rise) := by
  have longer : start + (n + 1 : Nat) * rise = start + n * rise + rise := by
    push_cast
    ring
  rw [longer]
  rcases le_total ceiling (start + n * rise) with above | below
  · rw [min_eq_left above, min_eq_left (le_add_of_nonneg_right nonneg),
      min_eq_left (above.trans (le_add_of_nonneg_right nonneg))]
  · rw [min_eq_right below]

/-- The samples of `calm` are calm, each in the state the samples before it lead to. -/
def Builder.Calms (b : Builder) (samples calm : List Sample) : Prop :=
  ∀ before s after, calm = before ++ s :: after → Calm b (b.after (samples ++ before)) s

theorem Builder.Calms.left {samples calm : List Sample} (calms : b.Calms samples (calm ++ [s])) :
    b.Calms samples calm := by
  rintro before s' after rfl
  exact calms before s' (after ++ [s]) (by simp)

theorem after_calm (bounded : b.Bounded) (tuned : b.Tuned) (queue : ∀ cap, 1 ≤ b.queueSizeFn cap)
    {samples calm : List Sample} (calms : b.Calms samples (calm ++ [s])) :
    (b.after (samples ++ (calm ++ [s]))).estimatedLimit = min (b.maxConcurrency : ℚ)
      ((b.after (samples ++ calm)).estimatedLimit +
        b.smoothing * b.queueSizeFn (truncate (b.after (samples ++ calm)).estimatedLimit)) := by
  rw [← List.append_assoc, Builder.after_concat]
  exact onSample_calm tuned (after_steady bounded tuned _) (calms calm s [] rfl)
    (Int.le_trans (by decide) (queue _))

theorem after_climbs (bounded : b.Bounded) (tuned : b.Tuned) (queue : ∀ cap, 1 ≤ b.queueSizeFn cap)
    (samples : List Sample) {calm : List Sample} (calms : b.Calms samples calm) :
    min (b.maxConcurrency : ℚ) ((b.after samples).estimatedLimit + calm.length * b.smoothing) ≤
      (b.after (samples ++ calm)).estimatedLimit := by
  induction calm using List.reverseRecOn with
  | nil => simp
  | append_singleton calm s ih =>
    have slow := tuned.smoothing_nonneg
    have one (cap : Int) : (1 : ℚ) ≤ b.queueSizeFn cap := by exact_mod_cast queue cap
    rw [after_calm bounded tuned queue calms, List.length_append, List.length_singleton,
      min_ramp_succ slow]
    gcongr
    · exact ih calms.left
    · exact le_mul_of_one_le_right slow (one _)

theorem after_ramp {q : Int} (bounded : b.Bounded) (tuned : b.Tuned)
    (queue : ∀ cap, 1 ≤ b.queueSizeFn cap) (constant : ∀ cap, b.queueSizeFn cap = q)
    (samples : List Sample) {calm : List Sample} (calms : b.Calms samples calm) :
    (b.after (samples ++ calm)).estimatedLimit = min (b.maxConcurrency : ℚ)
      ((b.after samples).estimatedLimit + calm.length * (b.smoothing * q)) := by
  induction calm using List.reverseRecOn with
  | nil =>
    rw [List.append_nil, List.length_nil, Nat.cast_zero, zero_mul, add_zero]
    exact (min_eq_right (after_inBounds bounded samples).ceiling).symm
  | append_singleton calm s ih =>
    have nonneg : (0 : ℚ) ≤ q := by
      have one : 1 ≤ q := constant 0 ▸ queue 0
      exact_mod_cast Int.le_trans (by decide) one
    rw [after_calm bounded tuned queue calms, List.length_append, List.length_singleton,
      min_ramp_succ (mul_nonneg tuned.smoothing_nonneg nonneg), ih calms.left, constant]

/-- From every reachable state the estimate climbs by at least the smoothing factor with each
calm sample, by exactly the smoothed queue size if that is constant, until it is at the
ceiling. -/
theorem bounded_recovery (b : Builder) (bounded : b.Bounded) (tuned : b.Tuned)
    (speed : 0 < b.smoothing) (queue : ∀ cap, 1 ≤ b.queueSizeFn cap) (samples calm : List Sample)
    (calms : b.Calms samples calm) :
    min (b.maxConcurrency : ℚ) ((b.after samples).estimatedLimit + calm.length * b.smoothing) ≤
        (b.after (samples ++ calm)).estimatedLimit ∧
      (∀ q : Int, (∀ cap, b.queueSizeFn cap = q) → (b.after (samples ++ calm)).estimatedLimit =
        min (b.maxConcurrency : ℚ)
          ((b.after samples).estimatedLimit + calm.length * b.smoothing * q)) ∧
      ((b.maxConcurrency - (b.after samples).estimatedLimit) / b.smoothing ≤ calm.length →
        (b.after (samples ++ calm)).limit = b.maxConcurrency) := by
  have bounds := after_inBounds bounded (samples ++ calm)
  have climbed := after_climbs bounded tuned queue samples calms
  refine ⟨climbed, ?_, ?_⟩
  · intro q constant
    rw [mul_assoc]
    exact after_ramp bounded tuned queue constant samples calms
  · intro enough
    have arrived : (b.maxConcurrency : ℚ) ≤
        (b.after samples).estimatedLimit + calm.length * b.smoothing := by
      rw [div_le_iff₀ speed] at enough
      linarith
    rw [min_eq_left arrived] at climbed
    rw [bounds.published, le_antisymm bounds.ceiling climbed, truncate_intCast]

/-- A cap of one below a ceiling of three, a constant queue size and no smoothing. -/
def shortClimb : Builder :=
  { initialLimit := 1, minLimit := 1, maxConcurrency := 3, queueSizeFn := fun _ => 1,
    smoothing := 1 }

/-- Two calm samples after the first measured one bring it to the ceiling. -/
theorem shortClimb_recovers :
    (shortClimb.after ([⟨0, 1000, 0, false⟩] ++
      [⟨2000, 1000, 2, false⟩, ⟨4000, 1500, 2, false⟩])).limit = 3 := by
  have calms : shortClimb.Calms [⟨0, 1000, 0, false⟩]
      [⟨2000, 1000, 2, false⟩, ⟨4000, 1500, 2, false⟩] := by
    rintro (_ | ⟨first, _ | ⟨second, _ | ⟨third, before⟩⟩⟩) s after split <;> simp at split
    · obtain ⟨rfl, _⟩ := split
      exact ⟨by decide, by decide +kernel, by decide +kernel⟩
    · obtain ⟨rfl, rfl, _⟩ := split
      exact ⟨by decide, by decide +kernel, by decide +kernel⟩
  refine (bounded_recovery shortClimb ⟨by decide, by decide⟩
    ⟨by norm_num [shortClimb], by norm_num [shortClimb], by norm_num [shortClimb], by decide⟩
    (by norm_num [shortClimb]) (fun _ => le_rfl) _ _ calms).2.2 ?_
  decide +kernel
end Limen.Gradient2Limit
