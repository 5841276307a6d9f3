import Limen.Gradient2Limit

/-! The long-term RTT stays among the RTTs that were measured. Drift correction works outside
the averages, but it only ever acts on a value that is more than twice a sample. -/
namespace Limen.Gradient2Limit
open ExpAvgMeasurement
variable {b : Builder} {low high : ℚ}

/-- The positive RTTs among the samples. -/
def measured (samples : List Sample) : List Int :=
  (samples.map Sample.rttNs).filter fun rttNs => 0 < rttNs

theorem mem_measured {samples : List Sample} {rttNs : Int} :
    rttNs ∈ measured samples ↔ 0 < rttNs ∧ ∃ s ∈ samples, s.rttNs = rttNs := by
  simp [measured, and_comm]

theorem measured_concat (samples : List Sample) (s : Sample) :
    measured (samples ++ [s]) = measured samples ++ if 0 < s.rttNs then [s.rttNs] else [] := by
  simp [measured, List.filter_singleton]

/-- Compression starts above twice the sample, so it does not pass below it. -/
theorem correctDrift_between {m : ExpAvgMeasurement} {shortRtt : ℚ} (between : m.Between low high)
    (fed : 0 < m.count) (positive : 0 < low) (above : low ≤ shortRtt) :
    (correctDrift m shortRtt).Between low high := by
  rw [correctDrift]
  split
  · rename_i drifted
    have short : 0 < shortRtt := positive.trans_le above
    have twice : 2 * shortRtt < m.value := (lt_div_iff₀ short).mp drifted
    obtain ⟨_, below⟩ := between.value fed
    refine ⟨between.sum_low, between.sum_high, fun _ => ⟨?_, ?_⟩⟩
    · change low ≤ m.value * (95 / 100)
      linarith
    · change m.value * (95 / 100) ≤ high
      linarith
  · exact between

/-- What the samples so far keep of the long-term RTT, given bounds on them. -/
structure Enveloped (b : Builder) (low high : ℚ) (samples : List Sample) : Prop where
  window : (b.after samples).longRtt.window = b.longWindow
  warmup : (b.after samples).longRtt.warmupWindow = 10
  between : (b.after samples).longRtt.Between low high
  fed : measured samples ≠ [] → 0 < (b.after samples).longRtt.count

theorem after_enveloped (window : 1 ≤ b.longWindow) (positive : 0 < low) {samples : List Sample}
    (bounds : ∀ rttNs ∈ measured samples, low ≤ rttNs ∧ rttNs ≤ high) :
    Enveloped b low high samples := by
  induction samples using List.reverseRecOn with
  | nil => exact ⟨rfl, rfl, ⟨by simp [Builder.after, Builder.build],
      by simp [Builder.after, Builder.build], by simp [Builder.after, Builder.build]⟩,
      by simp [measured]⟩
  | append_singleton samples s ih =>
    rw [measured_concat] at bounds
    have before := ih fun rttNs member => bounds rttNs (List.mem_append_left _ member)
    have here := Builder.after_concat b samples s
    rcases onSample_cases b (b.after samples) s with ⟨unmeasured, _, same⟩ | ⟨fed, folded, _⟩
    · rw [← here] at same
      have none : measured (samples ++ [s]) = measured samples := by
        rw [measured_concat, if_neg (Int.not_lt.mpr unmeasured), List.append_nil]
      constructor
      · exact same ▸ before.window
      · exact same ▸ before.warmup
      · exact same ▸ before.between
      · rw [none, same]
        exact before.fed
    · rw [← here] at folded
      obtain ⟨above, below⟩ := bounds s.rttNs (by simp [fed])
      obtain ⟨between, counted⟩ := before.between.add (by rw [before.window]; exact window)
        (by rw [before.warmup]; decide) above below
      constructor
      · rw [folded, correctDrift_window, add_window, before.window]
      · rw [folded, correctDrift_warmupWindow, add_warmupWindow, before.warmup]
      · rw [folded]
        exact correctDrift_between between counted positive above
      · intro _
        rw [folded, correctDrift_count]
        exact counted

/-- After the first measured sample, the long-term RTT is between the least and the greatest
RTT measured so far, and so it is positive. -/
theorem baseline_in_envelope (b : Builder) (window : 1 ≤ b.longWindow) (samples : List Sample)
    (fed : measured samples ≠ []) :
    ∃ low high, (measured samples).min? = some low ∧ (measured samples).max? = some high ∧
      low ≤ (b.after samples).longRtt.value ∧ (b.after samples).longRtt.value ≤ high ∧
      0 < (b.after samples).longRtt.value := by
  obtain ⟨low, least⟩ := Option.isSome_iff_exists.mp (List.isSome_min?_iff.mpr fed)
  obtain ⟨high, greatest⟩ := Option.isSome_iff_exists.mp (List.isSome_max?_iff.mpr fed)
  obtain ⟨attained, lower⟩ := List.min?_eq_some_iff.mp least
  obtain ⟨_, upper⟩ := List.max?_eq_some_iff.mp greatest
  have positive : (0 : ℚ) < low := by exact_mod_cast (mem_measured.mp attained).1
  have enveloped : Enveloped b low high samples := by
    apply after_enveloped window positive
    intro rttNs member
    exact ⟨by exact_mod_cast lower rttNs member, by exact_mod_cast upper rttNs member⟩
  obtain ⟨above, below⟩ := enveloped.between.value (enveloped.fed fed)
  exact ⟨low, high, least, greatest, above, below, positive.trans_le above⟩

/-- A spike that the default baseline recovers from. -/
theorem spike_in_envelope : 10 ≤ (({} : Builder).after
    [⟨0, 10, 20, false⟩, ⟨0, 1000, 20, false⟩, ⟨0, 10, 20, false⟩]).longRtt.value := by
  obtain ⟨low, high, least, _, above, _⟩ := baseline_in_envelope {} (by decide)
    [⟨0, 10, 20, false⟩, ⟨0, 1000, 20, false⟩, ⟨0, 10, 20, false⟩] (by decide)
  obtain rfl : 10 = low := Option.some.inj least
  exact_mod_cast above
end Limen.Gradient2Limit
