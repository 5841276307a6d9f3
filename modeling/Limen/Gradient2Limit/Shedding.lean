import Limen.Gradient2Limit.Bounds

/-! When the cap does not shrink. The gradient is taken of the long-term RTT after the
sample is folded in, while tolerance is promised of the one held before. -/
namespace Limen.Gradient2Limit
open ExpAvgMeasurement
variable {b : Builder} {g : Gradient2Limit} {s : Sample}

/-- The ranges that the comments of the builder ask for. -/
structure Builder.Tuned (b : Builder) : Prop where
  smoothing_nonneg : 0 ≤ b.smoothing
  smoothing_le_one : b.smoothing ≤ 1
  tolerant : 1 ≤ b.rttTolerance
  window : 1 ≤ b.longWindow

theorem correctDrift_cases (m : ExpAvgMeasurement) (shortRtt : ℚ) :
    correctDrift m shortRtt = m ∨ correctDrift m shortRtt = m.update (· * (95 / 100)) := by
  rw [correctDrift]
  split
  · exact .inr rfl
  · exact .inl rfl

/-- What the long-term RTT keeps with any bounds. -/
structure Averages (b : Builder) (g : Gradient2Limit) : Prop where
  window : g.longRtt.window = b.longWindow
  warmup : g.longRtt.warmupWindow = 10
  lags : g.longRtt.Lags

theorem build_averages (b : Builder) : Averages b b.build where
  window := rfl
  warmup := rfl
  lags := ⟨le_rfl, le_rfl, fun _ => by simp [Builder.build]⟩

theorem Averages.onSample (window : 1 ≤ b.longWindow) (averages : Averages b g) (s : Sample) :
    Averages b (g.onSample b s) := by
  rcases onSample_cases b g s with ⟨_, _, same⟩ | ⟨measured, folded, _⟩
  · exact ⟨same ▸ averages.window, same ▸ averages.warmup, same ▸ averages.lags⟩
  · have positive : (0 : ℚ) < s.rttNs := by exact_mod_cast measured
    have lags : (g.longRtt.add s.rttNs).Lags :=
      averages.lags.add (by rw [averages.window]; exact window) positive
    constructor <;> rw [folded]
    · rw [correctDrift_window, add_window, averages.window]
    · rw [correctDrift_warmupWindow, add_warmupWindow, averages.warmup]
    · rcases correctDrift_cases (g.longRtt.add s.rttNs) s.rttNs with kept | compressed
      · rw [kept]
        exact lags
      · rw [compressed]
        exact lags.compress (by norm_num) (by norm_num)

theorem after_averages (window : 1 ≤ b.longWindow) (samples : List Sample) :
    Averages b (b.after samples) :=
  Builder.after_invariant (build_averages b) (fun averages => averages.onSample window _) samples

/-- What the long-term RTT keeps along with the bounds. -/
structure Steady (b : Builder) (g : Gradient2Limit) : Prop extends InBounds b g where
  window : g.longRtt.window = b.longWindow
  warmup : g.longRtt.warmupWindow = 10
  lags : g.longRtt.Lags

theorem after_steady (bounded : b.Bounded) (tuned : b.Tuned) (samples : List Sample) :
    Steady b (b.after samples) :=
  have averages := after_averages tuned.window samples
  ⟨after_inBounds bounded samples, averages.window, averages.warmup, averages.lags⟩

/-- Samples without a measured RTT leave the long-term RTT as it was built. -/
theorem after_unmeasured {samples : List Sample} (unmeasured : ∀ s ∈ samples, s.rttNs ≤ 0) :
    (b.after samples).longRtt = b.build.longRtt := by
  induction samples using List.reverseRecOn with
  | nil => rfl
  | append_singleton samples s ih =>
    rw [Builder.after_concat]
    rcases onSample_cases b (b.after samples) s with ⟨_, _, same⟩ | ⟨measured, _⟩
    · rw [same]
      exact ih fun other member => unmeasured other (List.mem_append_left _ member)
    · exact absurd (unmeasured s (by simp)) (Int.not_le.mpr measured)

theorem gradient_eq_one {longRtt shortRtt : ℚ} (positive : 0 < shortRtt)
    (within : shortRtt ≤ b.rttTolerance * longRtt) : gradient b longRtt shortRtt = 1 := by
  have quotient : 1 ≤ b.rttTolerance * longRtt / shortRtt := (one_le_div positive).mpr within
  rw [gradient, min_eq_left quotient]
  norm_num

/-- With the full gradient the estimate moves up, as far as the ceiling lets it. -/
theorem le_newLimit {estimate queue : ℚ} (smoothing : 0 ≤ b.smoothing)
    (ceiling : estimate ≤ b.maxConcurrency) (nonneg : 0 ≤ queue) :
    estimate ≤ newLimit b estimate 1 queue := by
  apply le_newLimit_of ceiling
  calc estimate ≤ estimate + queue * b.smoothing := le_add_of_nonneg_right (by positivity)
    _ = estimate * (1 - b.smoothing) + (estimate * 1 + queue) * b.smoothing := by ring

/-- The sample is within the tolerance of the long-term RTT it is folded into. -/
theorem within_folded {samples : List Sample} (bounded : b.Bounded) (tuned : b.Tuned)
    (measured : 0 < s.rttNs)
    (calm : (∀ earlier ∈ samples, earlier.rttNs ≤ 0) ∨
      s.rttNs ≤ b.rttTolerance * (b.after samples).longRtt.value) :
    (s.rttNs : ℚ) ≤ b.rttTolerance * ((b.after samples).longRtt.add s.rttNs).value := by
  have positive : (0 : ℚ) < s.rttNs := by exact_mod_cast measured
  rcases calm with unmeasured | within
  · rw [after_unmeasured unmeasured, add_first rfl rfl (show (0 : Int) < 10 by decide)]
    exact le_mul_of_one_le_left positive.le tuned.tolerant
  · have steady := after_steady bounded tuned samples
    exact le_mul_add steady.lags (by rw [steady.window]; exact tuned.window) positive
      tuned.tolerant within

/-- The first measured sample, and every sample within the tolerance of the long-term RTT
held before it, leaves the cap where it is or raises it. -/
theorem no_unjustified_shedding (b : Builder) (bounded : b.Bounded) (tuned : b.Tuned)
    (queue : ∀ cap, 0 ≤ b.queueSizeFn cap) (samples : List Sample) (s : Sample)
    (calm : (∀ earlier ∈ samples, earlier.rttNs ≤ 0) ∨
      s.rttNs ≤ b.rttTolerance * (b.after samples).longRtt.value) :
    (b.after samples).estimatedLimit ≤ (b.after (samples ++ [s])).estimatedLimit ∧
      (b.after samples).limit ≤ (b.after (samples ++ [s])).limit := by
  have steady := after_steady bounded tuned samples
  suffices estimate : (b.after samples).estimatedLimit ≤ (b.after (samples ++ [s])).estimatedLimit by
    refine ⟨estimate, ?_⟩
    rw [steady.published, (after_inBounds bounded (samples ++ [s])).published]
    exact truncate_mono estimate
  rw [Builder.after_concat]
  rcases onSample_cases b (b.after samples) s with
    ⟨_, same, _⟩ | ⟨measured, _, ⟨_, same⟩ | ⟨_, moved⟩⟩
  · exact same.ge
  · exact same.ge
  · have positive : (0 : ℚ) < s.rttNs := by exact_mod_cast measured
    rw [moved, gradient_eq_one positive (within_folded bounded tuned measured calm)]
    exact le_newLimit tuned.smoothing_nonneg steady.ceiling (by exact_mod_cast queue _)

theorem default_bounded : ({} : Builder).Bounded := ⟨by decide, by decide⟩

theorem default_tuned : ({} : Builder).Tuned :=
  ⟨by norm_num, by norm_num, by norm_num, by decide⟩

theorem defaultSqrtQueueSize_pos (cap : Int) : 1 ≤ defaultSqrtQueueSize cap := le_max_left _ _

/-- With the defaults, a second sample half again as slow as the first is forgiven. -/
theorem default_forgives :
    (({} : Builder).after [⟨0, 1000, 20, false⟩]).limit ≤
      (({} : Builder).after [⟨0, 1000, 20, false⟩, ⟨2000, 1500, 20, false⟩]).limit := by
  refine (no_unjustified_shedding {} default_bounded default_tuned ?_ [⟨0, 1000, 20, false⟩]
    ⟨2000, 1500, 20, false⟩ (.inr ?_)).2
  · intro cap
    exact Int.le_trans (by decide) (defaultSqrtQueueSize_pos cap)
  · decide +kernel
end Limen.Gradient2Limit
