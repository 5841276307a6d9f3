import Limen.Gradient2Limit.Baseline
import Limen.Gradient2Limit.Shedding

/-! How a spike is forgotten. Under samples of one RTT, averaging alone brings the long-term RTT
down by a constant factor of its distance; drift correction takes off more, but it acts only
from above twice the RTT and so cannot pass it. -/
namespace Limen.Gradient2Limit
open ExpAvgMeasurement
variable {b : Builder} {g : Gradient2Limit} {s : Sample}

/-- The measured samples are counted until the warm-up is over. -/
theorem after_count (window : 1 ≤ b.longWindow) (samples : List Sample) :
    (b.after samples).longRtt.count = min 10 (measured samples).length := by
  induction samples using List.reverseRecOn with
  | nil => rfl
  | append_singleton samples s ih =>
    rw [Builder.after_concat, measured_concat]
    rcases onSample_cases b (b.after samples) s with ⟨unmeasured, _, same⟩ | ⟨fed, folded, _⟩
    · rw [same, if_neg (Int.not_lt.mpr unmeasured), List.append_nil, ih]
    · rw [folded, correctDrift_count, if_pos fed, List.length_append, List.length_singleton]
      have warmup := (after_averages window samples).warmup
      by_cases warming : (b.after samples).longRtt.count < (b.after samples).longRtt.warmupWindow
      · rw [add_warmup warming]
        dsimp only
        omega
      · rw [add_steady (Int.not_lt.mp warming)]
        dsimp only
        omega

/-- Once the warm-up is over, it stays so. -/
theorem after_warm (window : 1 ≤ b.longWindow) {samples : List Sample}
    (warm : 10 ≤ (measured samples).length) (later : List Sample) :
    10 ≤ (b.after (samples ++ later)).longRtt.count := by
  rw [after_count window, measured, List.map_append, List.filter_append, List.length_append]
  rw [measured] at warm
  omega

/-- Past the warm-up, a sample keeps only a part of the distance to it. -/
theorem add_toward {m : ExpAvgMeasurement} (steady : m.warmupWindow ≤ m.count) (sample : ℚ) :
    (m.add sample).value = sample + (1 - steadyStateFactor m.window) * (m.value - sample) := by
  rw [add_steady steady]
  ring

/-- The correction keeps above the sample, and takes off five percent where it acts. -/
theorem correctDrift_toward {m : ExpAvgMeasurement} {shortRtt : ℚ} (positive : 0 < shortRtt)
    (above : shortRtt ≤ m.value) :
    shortRtt ≤ (correctDrift m shortRtt).value ∧ (correctDrift m shortRtt).value ≤ m.value ∧
      (2 * shortRtt < m.value → (correctDrift m shortRtt).value ≤ 95 / 100 * m.value) := by
  rw [correctDrift]
  split
  · rename_i drifted
    have twice : 2 * shortRtt < m.value := (lt_div_iff₀ positive).mp drifted
    change shortRtt ≤ m.value * (95 / 100) ∧ m.value * (95 / 100) ≤ m.value ∧ _
    refine ⟨by linarith, by linarith, fun _ => ?_⟩
    exact (mul_comm _ _).le
  · rename_i near
    refine ⟨above, le_rfl, fun twice => ?_⟩
    exact absurd ((lt_div_iff₀ positive).mpr twice) near

/-- One sample at or below the long-term RTT. -/
theorem onSample_toward (window : 1 ≤ b.longWindow) (averages : Averages b g)
    (warm : 10 ≤ g.longRtt.count) (measured : 0 < s.rttNs) (above : s.rttNs ≤ g.longRtt.value) :
    s.rttNs ≤ (g.onSample b s).longRtt.value ∧
      (g.onSample b s).longRtt.value ≤
        s.rttNs + (1 - 2 / (b.longWindow + 1)) * (g.longRtt.value - s.rttNs) ∧
      (2 * s.rttNs < (g.longRtt.add s.rttNs).value →
        (g.onSample b s).longRtt.value ≤ 95 / 100 * (g.longRtt.add s.rttNs).value) := by
  have positive : (0 : ℚ) < s.rttNs := by exact_mod_cast measured
  have steady : g.longRtt.warmupWindow ≤ g.longRtt.count := by
    rw [averages.warmup]
    exact_mod_cast warm
  have folded : (g.longRtt.add s.rttNs).value =
      s.rttNs + (1 - 2 / (b.longWindow + 1)) * (g.longRtt.value - s.rttNs) := by
    rw [add_toward steady, averages.window, steadyStateFactor]
  have rest : 0 ≤ 1 - steadyStateFactor b.longWindow :=
    sub_nonneg.mpr (steadyStateFactor_le_one window)
  have still : s.rttNs ≤ (g.longRtt.add s.rttNs).value := by
    rw [folded]
    exact le_add_of_nonneg_right (mul_nonneg rest (sub_nonneg.mpr above))
  rcases onSample_cases b g s with ⟨unmeasured, _⟩ | ⟨_, corrected, _⟩
  · exact absurd measured (Int.not_lt.mpr unmeasured)
  · rw [corrected, ← folded]
    exact correctDrift_toward positive still

/-- What any number of such samples leave of the distance. -/
theorem after_toward (window : 1 ≤ b.longWindow) {samples later : List Sample} {rttNs : Int}
    (warm : 10 ≤ (measured samples).length) (positive : 0 < rttNs)
    (above : rttNs ≤ (b.after samples).longRtt.value) (same : ∀ s ∈ later, s.rttNs = rttNs) :
    rttNs ≤ (b.after (samples ++ later)).longRtt.value ∧
      (b.after (samples ++ later)).longRtt.value ≤ rttNs +
        (1 - 2 / (b.longWindow + 1)) ^ later.length * ((b.after samples).longRtt.value - rttNs) := by
  induction later using List.reverseRecOn with
  | nil => simp [above]
  | append_singleton later s ih =>
    obtain ⟨low, high⟩ := ih fun other member => same other (List.mem_append_left _ member)
    obtain rfl : s.rttNs = rttNs := same s (by simp)
    obtain ⟨above', below, _⟩ := onSample_toward window (after_averages window (samples ++ later))
      (after_warm window warm later) positive low
    rw [← List.append_assoc, Builder.after_concat]
    refine ⟨above', below.trans ?_⟩
    have rest : 0 ≤ 1 - steadyStateFactor b.longWindow :=
      sub_nonneg.mpr (steadyStateFactor_le_one window)
    rw [steadyStateFactor] at rest
    rw [List.length_append, List.length_singleton, pow_succ']
    calc (s.rttNs : ℚ) + (1 - 2 / (b.longWindow + 1)) *
          ((b.after (samples ++ later)).longRtt.value - s.rttNs)
        ≤ s.rttNs + (1 - 2 / (b.longWindow + 1)) * ((1 - 2 / (b.longWindow + 1)) ^ later.length *
            ((b.after samples).longRtt.value - s.rttNs)) := by
          gcongr
          linarith
      _ = _ := by ring

/-- Past the warm-up, samples of one RTT at or below the long-term RTT bring it down to theirs:
never below, at least as fast as averaging does, and by five percent more with each
sample that leaves it above twice theirs. -/
theorem spike_forgotten (b : Builder) (window : 1 ≤ b.longWindow) (samples later : List Sample)
    (rttNs : Int) (warm : 10 ≤ (measured samples).length) (positive : 0 < rttNs)
    (above : rttNs ≤ (b.after samples).longRtt.value) (same : ∀ s ∈ later, s.rttNs = rttNs) :
    rttNs ≤ (b.after (samples ++ later)).longRtt.value ∧
      (b.after (samples ++ later)).longRtt.value ≤ rttNs +
        (1 - 2 / (b.longWindow + 1)) ^ later.length * ((b.after samples).longRtt.value - rttNs) ∧
      ∀ before s after, later = before ++ s :: after →
        2 * rttNs < ((b.after (samples ++ before)).longRtt.add rttNs).value →
        (b.after (samples ++ before ++ [s])).longRtt.value ≤
          95 / 100 * ((b.after (samples ++ before)).longRtt.add rttNs).value := by
  obtain ⟨low, high⟩ := after_toward window warm positive above same
  refine ⟨low, high, ?_⟩
  rintro before s after rfl drifted
  obtain rfl : s.rttNs = rttNs := same s (by simp)
  obtain ⟨lowBefore, _⟩ := after_toward window warm positive above
    fun other (member : other ∈ before) => same other (List.mem_append_left _ member)
  rw [Builder.after_concat]
  exact (onSample_toward window (after_averages window (samples ++ before))
    (after_warm window warm before) positive lowBefore).2.2 drifted

/-- Ten slow samples and three that are ten times as fast, with the defaults. -/
theorem tenfold_spike_forgotten :
    100 ≤ (({} : Builder).after (List.replicate 10 ⟨0, 1000, 20, false⟩ ++
        List.replicate 3 ⟨0, 100, 20, false⟩)).longRtt.value ∧
      (({} : Builder).after (List.replicate 10 ⟨0, 1000, 20, false⟩ ++
          List.replicate 3 ⟨0, 100, 20, false⟩)).longRtt.value ≤
        100 + (599 / 601) ^ 3 * ((({} : Builder).after
          (List.replicate 10 ⟨0, 1000, 20, false⟩)).longRtt.value - 100) := by
  have forgotten := spike_forgotten {} (by decide) (List.replicate 10 ⟨0, 1000, 20, false⟩)
    (List.replicate 3 ⟨0, 100, 20, false⟩) 100 (by decide) (by decide) (by decide +kernel)
    (fun s member => by rw [List.eq_of_mem_replicate member])
  obtain ⟨low, high, _⟩ := forgotten
  norm_num at low high ⊢
  exact ⟨low, high⟩
end Limen.Gradient2Limit
