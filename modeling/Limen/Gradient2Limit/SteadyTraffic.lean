import Limen.Gradient2Limit.Baseline
import Limen.Gradient2Limit.Shedding
import Limen.SampleWindow.Percentile
import Limen.WindowedLimit.Refinement
import Limen.WindowedLimit.Tearing

/-! `WindowedLimit` over `Gradient2Limit`, one sample after the other. What the windows pass on lies
among the RTTs they were fed, so that traffic which varies by no more than the tolerance never
lowers the cap. -/
namespace Limen
open ExpAvgMeasurement WindowedLimit

/-- All RTTs are in a band. -/
def InBand (low high : Int) (samples : List Sample) : Prop :=
  ∀ s ∈ samples, low ≤ s.rttNs ∧ s.rttNs ≤ high

theorem inBand_nil (low high : Int) : InBand low high [] := by simp [InBand]

/-- An aggregate of RTTs that does not leave their band. -/
def StaysInBand (tracked : List Sample → Int) : Prop :=
  ∀ {low high : Int} {samples : List Sample}, 0 ≤ low → samples ≠ [] → InBand low high samples →
    low ≤ tracked samples ∧ tracked samples ≤ high

theorem meanRtt_staysInBand : StaysInBand meanRtt := by
  intro low high samples nonneg nonempty band
  have bounds : ∀ x ∈ samples.map Sample.rttNs, low ≤ x ∧ x ≤ high := by
    intro x member
    obtain ⟨s, there, rfl⟩ := List.mem_map.mp member
    exact band s there
  obtain ⟨⟨least, there, below⟩, greatest, there', above⟩ :=
    mean_between (l := samples.map Sample.rttNs) (by simpa using nonempty)
      fun x member => nonneg.trans (bounds x member).1
  rw [List.length_map] at below above
  exact ⟨(bounds least there).1.trans below, above.trans (bounds greatest there').2⟩

theorem percentileRtt_staysInBand (percentile : ℚ) {maxSamples : Nat} (positive : 1 ≤ maxSamples) :
    StaysInBand (percentileRtt percentile maxSamples) := by
  intro low high samples _ nonempty band
  have nth := PercentileSampleWindow.nthSmallest_percentileRtt percentile positive nonempty
  obtain ⟨s, there, same⟩ := List.mem_map.mp (List.mem_of_mem_take nth.mem)
  rw [← same]
  exact band s there

namespace WindowedLimit

/-- The list of the current window has only accepted samples, and what is passed on is an aggregate
of such a list. -/
theorem naive_inBand {c : Config} {tracked : List Sample → Int} (stays : StaysInBand tracked)
    {low high : Int} (nonneg : 0 ≤ low) {n : Naive} {samples : List Sample}
    (current : InBand low high n.samples)
    (band : ∀ s ∈ samples, c.minRttThresholdNs ≤ s.rttNs → low ≤ s.rttNs ∧ s.rttNs ≤ high) :
    InBand low high (delegateCalls (Naive.onSample c tracked) n samples) := by
  induction samples generalizing n with
  | nil => exact inBand_nil low high
  | cons s rest ih =>
    have later : ∀ s ∈ rest, c.minRttThresholdNs ≤ s.rttNs → low ≤ s.rttNs ∧ s.rttNs ≤ high :=
      fun s member => band s (List.mem_cons_of_mem _ member)
    rw [delegateCalls]
    simp only [Naive.onSample]
    split
    · exact ih current later
    · rename_i accepted
      have extended : InBand low high (n.samples ++ [s]) := by
        intro other member
        rcases List.mem_append.mp member with earlier | last
        · exact current other earlier
        · rw [List.mem_singleton.mp last]
          exact band s List.mem_cons_self (Int.not_lt.mp accepted)
      split
      · intro other member
        rcases List.mem_append.mp member with now | after
        · split at now
          · rw [List.mem_singleton.mp now]
            exact stays nonneg (by simp) extended
          · contradiction
        · exact ih (inBand_nil low high) later other after
      · exact ih extended later

theorem delegateCalls_append {σ : Type} (onSample : σ → Sample → σ × Option Sample) (state : σ)
    (samples more : List Sample) : delegateCalls onSample state samples <+:
      delegateCalls onSample state (samples ++ more) := by
  induction samples generalizing state with
  | nil => exact List.nil_prefix
  | cons s rest ih =>
    rw [List.cons_append, delegateCalls, delegateCalls]
    exact List.prefix_append_right_inj _ |>.mpr (ih _)
end WindowedLimit

namespace Gradient2Limit
variable {b : Builder} {low high : Int}

/-- In a band that the tolerance covers, every sample is within the tolerance of the baseline. -/
theorem onSample_inBand (bounded : b.Bounded) (tuned : b.Tuned)
    (queue : ∀ cap, 0 ≤ b.queueSizeFn cap) (positive : 0 < low)
    (jitter : high ≤ b.rttTolerance * low) {samples : List Sample} {s : Sample}
    (band : InBand low high (samples ++ [s])) :
    (b.after samples).estimatedLimit ≤ (b.after (samples ++ [s])).estimatedLimit := by
  have bounds := after_inBounds bounded samples
  have lowest : (0 : ℚ) < low := by exact_mod_cast positive
  have enveloped : Enveloped b low high samples := by
    refine after_enveloped tuned.window lowest fun rttNs member => ?_
    obtain ⟨_, other, there, rfl⟩ := mem_measured.mp member
    obtain ⟨above, below⟩ := band other (List.mem_append_left _ there)
    exact ⟨by exact_mod_cast above, by exact_mod_cast below⟩
  obtain ⟨above, below⟩ := band s (by simp)
  have above : (low : ℚ) ≤ s.rttNs := by exact_mod_cast above
  have below : (s.rttNs : ℚ) ≤ high := by exact_mod_cast below
  rw [Builder.after_concat]
  rcases onSample_cases b (b.after samples) s with
    ⟨_, same, _⟩ | ⟨measured, _, ⟨_, same⟩ | ⟨_, moved⟩⟩
  · exact same.ge
  · exact same.ge
  · obtain ⟨between, counted⟩ := enveloped.between.add
      (by rw [enveloped.window]; exact tuned.window) (by rw [enveloped.warmup]; decide) above below
    have baseline := (between.value counted).1
    have within :
        (s.rttNs : ℚ) ≤ b.rttTolerance * ((b.after samples).longRtt.add s.rttNs).value := by
      have tolerance : 0 ≤ b.rttTolerance := zero_le_one.trans tuned.tolerant
      calc (s.rttNs : ℚ) ≤ b.rttTolerance * low := below.trans jitter
        _ ≤ _ := by gcongr
    rw [moved, gradient_eq_one (lowest.trans_le above) within]
    exact le_newLimit tuned.smoothing_nonneg bounds.ceiling (by exact_mod_cast queue _)

theorem after_inBand (bounded : b.Bounded) (tuned : b.Tuned) (queue : ∀ cap, 0 ≤ b.queueSizeFn cap)
    (positive : 0 < low) (jitter : high ≤ b.rttTolerance * low) {samples more : List Sample}
    (band : InBand low high (samples ++ more)) :
    (b.after samples).estimatedLimit ≤ (b.after (samples ++ more)).estimatedLimit := by
  induction more using List.reverseRecOn with
  | nil => rw [List.append_nil]
  | append_singleton more s ih =>
    rw [← List.append_assoc] at band ⊢
    exact (ih fun other member => band other (List.mem_append_left _ member)).trans
      (onSample_inBand bounded tuned queue positive jitter band)

/-- `WindowedLimit` over `Gradient2Limit`, after samples that came one at a time. -/
def windowed {W : Type} [SampleWindow W] (b : Builder) (c : WindowedLimit.Config) (factory : W)
    (samples : List Sample) : Gradient2Limit :=
  b.after (delegateCalls (WindowedLimit.onSample c) (construct factory) samples)

/-- The cap does not fall under `more`, and the baseline is in the band of the RTTs. -/
structure Unshaken {W : Type} [SampleWindow W] (b : Builder) (c : WindowedLimit.Config)
    (factory : W) (low high : Int) (samples more : List Sample) : Prop where
  limit : (windowed b c factory samples).limit ≤ (windowed b c factory (samples ++ more)).limit
  baseline : 0 < (windowed b c factory samples).longRtt.count →
    low ≤ (windowed b c factory samples).longRtt.value ∧
      (windowed b c factory samples).longRtt.value ≤ high

theorem unshaken {W : Type} [SampleWindow W] {a : Aggregates W} (stays : StaysInBand a.tracked)
    {c : WindowedLimit.Config} (bounded : b.Bounded) (tuned : b.Tuned)
    (queue : ∀ cap, 0 ≤ b.queueSizeFn cap) (positive : 0 < low)
    (jitter : high ≤ b.rttTolerance * low) {samples more : List Sample}
    (band : ∀ s ∈ samples ++ more, c.minRttThresholdNs ≤ s.rttNs → low ≤ s.rttNs ∧ s.rttNs ≤ high)
    (safe : NoOverflow c a.tracked a.Fits {} (samples ++ more)) :
    Unshaken b c a.fresh low high samples more := by
  have whole : InBand low high
      (delegateCalls (WindowedLimit.onSample c) (construct a.fresh) (samples ++ more)) := by
    rw [delegateCalls_eq (represents_construct a) safe]
    exact naive_inBand stays positive.le (inBand_nil low high) band
  obtain ⟨rest, split⟩ :=
    delegateCalls_append (WindowedLimit.onSample c) (construct a.fresh) samples more
  rw [← split] at whole
  constructor
  · rw [windowed, windowed, ← split, (after_inBounds bounded _).published,
      (after_inBounds bounded _).published]
    exact truncate_mono (after_inBand bounded tuned queue positive jitter whole)
  · intro fed
    have lowest : (0 : ℚ) < low := by exact_mod_cast positive
    refine (after_enveloped tuned.window lowest fun rttNs member => ?_).between.value fed
    obtain ⟨_, other, there, rfl⟩ := mem_measured.mp member
    obtain ⟨above, below⟩ := whole other (List.mem_append_left _ there)
    exact ⟨by exact_mod_cast above, by exact_mod_cast below⟩

/-- While all RTTs above the noise threshold vary by no more than the tolerance, the cap never
falls, whatever is in flight and whatever is dropped, with windows of either kind in between, and the
long-term RTT stays in the band of the RTTs. -/
theorem steady_traffic_unshaken (b : Builder) (c : WindowedLimit.Config) (bounded : b.Bounded)
    (tuned : b.Tuned) (queue : ∀ cap, 0 ≤ b.queueSizeFn cap) (low high : Int) (positive : 0 < low)
    (jitter : high ≤ b.rttTolerance * low) (samples more : List Sample)
    (band : ∀ s ∈ samples ++ more,
      c.minRttThresholdNs ≤ s.rttNs → low ≤ s.rttNs ∧ s.rttNs ≤ high) :
    (NoOverflow c meanRtt AverageSampleWindow.Fits {} (samples ++ more) →
      Unshaken b c ({} : AverageSampleWindow) low high samples more) ∧
    ∀ (percentile : ℚ) (maxSamples : Nat), 1 ≤ maxSamples →
      NoOverflow c (percentileRtt percentile maxSamples) PercentileSampleWindow.Fits {}
        (samples ++ more) →
      Unshaken b c (PercentileSampleWindow.construct percentile maxSamples) low high samples
        more := by
  constructor
  · intro safe
    exact unshaken (a := AverageSampleWindow.aggregates) meanRtt_staysInBand bounded tuned queue
      positive jitter band safe
  · intro percentile maxSamples room safe
    exact unshaken (a := PercentileSampleWindow.aggregates percentile maxSamples room)
      (percentileRtt_staysInBand percentile room) bounded tuned queue positive jitter band safe

/-- Half again as slow is within the default tolerance, also with drops. -/
theorem halfAgain_unshaken :
    (windowed {} quickWindows ({} : AverageSampleWindow) [⟨0, 1000, 20, false⟩]).limit ≤
      (windowed {} quickWindows ({} : AverageSampleWindow)
        ([⟨0, 1000, 20, false⟩] ++ [⟨2000, 1500, 20, true⟩, ⟨4000, 1200, 30, true⟩])).limit := by
  have queue (cap : Int) : 0 ≤ ({} : Builder).queueSizeFn cap :=
    Int.le_trans (by decide) (defaultSqrtQueueSize_pos cap)
  exact ((steady_traffic_unshaken {} quickWindows default_bounded default_tuned queue 1000 1500
    (by decide) (by norm_num) [⟨0, 1000, 20, false⟩]
    [⟨2000, 1500, 20, true⟩, ⟨4000, 1200, 30, true⟩] (by decide)).1 (by decide)).limit
end Gradient2Limit
end Limen
