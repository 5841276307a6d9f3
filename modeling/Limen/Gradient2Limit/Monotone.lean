import Limen.Gradient2Limit.Shedding

/-! A slower sample never leads to a higher cap. It raises the long-term RTT that it is compared
with as well, but less than in proportion. -/
namespace Limen.Gradient2Limit
open ExpAvgMeasurement
variable {b : Builder} {g : Gradient2Limit} {fast slow : ℚ}

/-- Of what does not depend on the sample, a slower one has a smaller share. -/
theorem add_div_antitone {m : ExpAvgMeasurement} (lags : m.Lags) (window : 1 ≤ m.window)
    (positive : 0 < fast) (slower : fast ≤ slow) :
    (m.add slow).value / slow ≤ (m.add fast).value / fast := by
  have slowPos : 0 < slow := positive.trans_le slower
  have value := lags.value_nonneg
  have sum := lags.sum_nonneg
  by_cases warming : m.count < m.warmupWindow
  · have counted : (0 : ℚ) < (m.count + 1 : Nat) := by exact_mod_cast m.count.succ_pos
    have split (sample : ℚ) (nonzero : 0 < sample) : (m.sum + sample) / (m.count + 1 : Nat) / sample =
        m.sum / (m.count + 1 : Nat) / sample + 1 / (m.count + 1 : Nat) := by
      field_simp
    rw [add_warmup warming, add_warmup warming]
    dsimp only
    rw [split slow slowPos, split fast positive]
    gcongr
  · have steady : m.warmupWindow ≤ m.count := Int.not_lt.mp warming
    have rest : 0 ≤ 1 - steadyStateFactor m.window :=
      sub_nonneg.mpr (steadyStateFactor_le_one window)
    have split (sample : ℚ) (nonzero : 0 < sample) :
        (m.value * (1 - steadyStateFactor m.window) + sample * steadyStateFactor m.window) / sample =
          m.value * (1 - steadyStateFactor m.window) / sample + steadyStateFactor m.window := by
      field_simp
    rw [add_steady steady, add_steady steady]
    dsimp only
    rw [split slow slowPos, split fast positive]
    gcongr

theorem gradient_antitone {m : ExpAvgMeasurement} (tolerance : 0 ≤ b.rttTolerance) (lags : m.Lags)
    (window : 1 ≤ m.window) (positive : 0 < fast) (slower : fast ≤ slow) :
    gradient b (m.add slow).value slow ≤ gradient b (m.add fast).value fast := by
  have ratio := add_div_antitone lags window positive slower
  rw [gradient, gradient, mul_div_assoc, mul_div_assoc]
  exact max_le_max_left _ (min_le_min_left _ (mul_le_mul_of_nonneg_left ratio tolerance))

theorem newLimit_mono {estimate queue gradient gradient' : ℚ} (smoothing : 0 ≤ b.smoothing)
    (nonneg : 0 ≤ estimate) (le : gradient ≤ gradient') :
    newLimit b estimate gradient queue ≤ newLimit b estimate gradient' queue := by
  simp only [newLimit]
  gcongr

/-- From every reachable state with an estimate that is not negative, of two samples with the
same in-flight count the slower one leads to the lower estimate and the lower cap. -/
theorem slower_not_higher (b : Builder) (smoothing : 0 ≤ b.smoothing)
    (tolerance : 0 < b.rttTolerance) (window : 1 ≤ b.longWindow) (samples : List Sample)
    (nonneg : 0 ≤ (b.after samples).estimatedLimit) (fast slow : Sample)
    (alike : slow.inflight = fast.inflight) (positive : 0 < fast.rttNs)
    (slower : fast.rttNs ≤ slow.rttNs) :
    (b.after (samples ++ [slow])).estimatedLimit ≤ (b.after (samples ++ [fast])).estimatedLimit ∧
      (b.after (samples ++ [slow])).limit ≤ (b.after (samples ++ [fast])).limit := by
  rw [Builder.after_concat, Builder.after_concat, onSample_limit, onSample_limit]
  suffices estimate : ((b.after samples).onSample b slow).estimatedLimit ≤
      ((b.after samples).onSample b fast).estimatedLimit from ⟨estimate, truncate_mono estimate⟩
  have averages := after_averages window samples
  have fastPos : (0 : ℚ) < fast.rttNs := by exact_mod_cast positive
  have slowerRat : (fast.rttNs : ℚ) ≤ slow.rttNs := by exact_mod_cast slower
  rcases onSample_cases b (b.after samples) fast with
    ⟨unmeasured, _⟩ | ⟨_, _, ⟨limited, keptFast⟩ | ⟨used, movedFast⟩⟩
  · exact absurd positive (Int.not_lt.mpr unmeasured)
  · rcases onSample_cases b (b.after samples) slow with
      ⟨unmeasured, _⟩ | ⟨_, _, ⟨_, keptSlow⟩ | ⟨usedSlow, _⟩⟩
    · omega
    · rw [keptFast, keptSlow]
    · rw [alike] at usedSlow
      exact absurd limited (not_lt.mpr usedSlow)
  · rcases onSample_cases b (b.after samples) slow with
      ⟨unmeasured, _⟩ | ⟨_, _, ⟨limitedSlow, _⟩ | ⟨_, movedSlow⟩⟩
    · omega
    · rw [alike] at limitedSlow
      exact absurd used (not_le.mpr limitedSlow)
    · rw [movedFast, movedSlow]
      apply newLimit_mono smoothing nonneg
      exact gradient_antitone tolerance.le averages.lags (averages.window ▸ window) fastPos slowerRat

/-- The defaults after one sample, and two candidates of which one is three times as slow. -/
theorem default_slower_not_higher :
    (({} : Builder).after ([⟨0, 1000, 20, false⟩] ++ [⟨2000, 3000, 20, false⟩])).limit ≤
      (({} : Builder).after ([⟨0, 1000, 20, false⟩] ++ [⟨2000, 1000, 20, false⟩])).limit :=
  (slower_not_higher {} (by norm_num) (by norm_num) (by decide) [⟨0, 1000, 20, false⟩]
    (by decide +kernel) ⟨2000, 1000, 20, false⟩ ⟨2000, 3000, 20, false⟩ rfl (by decide)
    (by decide)).2
end Limen.Gradient2Limit
