import Limen.Gradient2Limit.Adaptation

/-! The starting cap is forgotten. Two limits that differ in it alone measure the same long-term
RTT and scale by the same gradients, so that what is left of the difference between them is known
from the samples. -/
namespace Limen.Gradient2Limit
variable {b : Builder} {g g' : Gradient2Limit} {s : Sample}

/-- The same settings with another starting cap. -/
def Builder.startingAt (b : Builder) (initialLimit : Int) : Builder := { b with initialLimit }

theorem onSample_longRtt (same : g.longRtt = g'.longRtt) (b : Builder) (initialLimit : Int)
    (s : Sample) :
    (g.onSample b s).longRtt = (g'.onSample (b.startingAt initialLimit) s).longRtt := by
  rcases onSample_cases b g s with ⟨unmeasured, _, kept⟩ | ⟨measured, moved, _⟩
  · rcases onSample_cases (b.startingAt initialLimit) g' s with ⟨_, _, kept'⟩ | ⟨measured, _⟩
    · rw [kept, kept', same]
    · exact absurd measured (Int.not_lt.mpr unmeasured)
  · rcases onSample_cases (b.startingAt initialLimit) g' s with ⟨unmeasured, _⟩ | ⟨_, moved', _⟩
    · exact absurd measured (Int.not_lt.mpr unmeasured)
    · rw [moved, moved', same]

theorem after_longRtt (b : Builder) (lower upper : Int) (samples : List Sample) :
    ((b.startingAt lower).after samples).longRtt =
      ((b.startingAt upper).after samples).longRtt := by
  induction samples using List.reverseRecOn with
  | nil => rfl
  | append_singleton samples s ih =>
    rw [Builder.after_concat, Builder.after_concat]
    exact onSample_longRtt ih (b.startingAt lower) upper s

/-- By how much a sample scales an estimate before the queue size is added. -/
def slope (b : Builder) (g : Gradient2Limit) (s : Sample) : ℚ :=
  if s.rttNs ≤ 0 then 1
  else 1 - b.smoothing * (1 - gradient b (g.longRtt.add s.rttNs).value s.rttNs)

@[simp] theorem slope_startingAt (b : Builder) (initialLimit : Int) (g : Gradient2Limit)
    (s : Sample) : slope (b.startingAt initialLimit) g s = slope b g s := rfl

/-- What a sequence of samples leaves of a difference between starting caps. -/
def Builder.retained (b : Builder) (samples : List Sample) : ℚ :=
  (samples.foldl (fun (acc : Gradient2Limit × ℚ) s => (acc.1.onSample b s, acc.2 * slope b acc.1 s))
    (b.build, 1)).2

theorem Builder.retained_concat (b : Builder) (samples : List Sample) (s : Sample) :
    b.retained (samples ++ [s]) = b.retained samples * slope b (b.after samples) s := by
  have state (samples : List Sample) : (samples.foldl (fun (acc : Gradient2Limit × ℚ) s =>
      (acc.1.onSample b s, acc.2 * slope b acc.1 s)) (b.build, 1)).1 = b.after samples := by
    induction samples using List.reverseRecOn with
    | nil => rfl
    | append_singleton samples s ih => rw [List.foldl_concat, Builder.after_concat, ← ih]
  rw [Builder.retained, List.foldl_concat, state]
  rfl

/-- The slopes depend on the long-term RTT and not on the cap. -/
theorem retained_startingAt (b : Builder) (initialLimit : Int) (samples : List Sample) :
    (b.startingAt initialLimit).retained samples = b.retained samples := by
  induction samples using List.reverseRecOn with
  | nil => rfl
  | append_singleton samples s ih =>
    have same : ((b.startingAt initialLimit).after samples).longRtt = (b.after samples).longRtt :=
      after_longRtt b initialLimit b.initialLimit samples
    rw [Builder.retained_concat, Builder.retained_concat, ih, slope_startingAt, slope, slope, same]

/-- Every sample with a measured RTT finds at least half of the cap in use. -/
def Builder.Busy (b : Builder) (samples : List Sample) : Prop :=
  ∀ before s after, samples = before ++ s :: after → 0 < s.rttNs →
    (b.after before).estimatedLimit / 2 ≤ s.inflight

theorem Builder.Busy.left {samples : List Sample} (busy : b.Busy (samples ++ [s])) :
    b.Busy samples := by
  rintro before s' after rfl
  exact busy before s' (after ++ [s]) (by simp)

theorem slope_bounds (tuned : b.Tuned) (g : Gradient2Limit) (s : Sample) :
    1 - b.smoothing / 2 ≤ slope b g s ∧ slope b g s ≤ 1 := by
  have slow := tuned.smoothing_nonneg
  rw [slope]
  split
  · constructor <;> linarith
  · obtain ⟨half, one⟩ := gradient_bounds b (g.longRtt.add s.rttNs).value s.rttNs
    have cut : b.smoothing * (1 - gradient b (g.longRtt.add s.rttNs).value s.rttNs) ≤
        b.smoothing * (1 / 2) := by
      gcongr
      linarith
    have rest : 0 ≤ b.smoothing * (1 - gradient b (g.longRtt.add s.rttNs).value s.rttNs) :=
      mul_nonneg slow (by linarith)
    constructor <;> linarith

/-- The clamp keeps the order of two estimates and does not draw them apart. -/
theorem clamp_sub_le {low high x y : ℚ} (le : x ≤ y) :
    max low (min high y) - max low (min high x) ≤ y - x := by
  have cut : min high y ≤ min high x + (y - x) := by
    rw [← min_add_add_right]
    refine le_min ((min_le_left _ _).trans ?_) ((min_le_right _ _).trans ?_)
    · exact le_add_of_nonneg_right (sub_nonneg.mpr le)
    · rw [add_sub_cancel]
  have clamped : max low (min high y) ≤ max low (min high x) + (y - x) := by
    refine max_le ?_ (cut.trans ?_)
    · exact (le_max_left low (min high x)).trans (le_add_of_nonneg_right (sub_nonneg.mpr le))
    · gcongr
      exact le_max_right _ _
  exact sub_le_iff_le_add'.mpr clamped

/-- The smoothed limit as a line in the estimate. -/
theorem newLimit_line (b : Builder) (estimate γ queue : ℚ) :
    newLimit b estimate γ queue = max (b.minLimit : ℚ) (min (b.maxConcurrency : ℚ)
      (estimate * (1 - b.smoothing * (1 - γ)) + b.smoothing * queue)) := by
  have line : estimate * (1 - b.smoothing) + (estimate * γ + queue) * b.smoothing =
      estimate * (1 - b.smoothing * (1 - γ)) + b.smoothing * queue := by ring
  rw [newLimit, line]

theorem newLimit_ordered (tuned : b.Tuned) {x y γ queue queue' : ℚ} (le : x ≤ y)
    (rising : 0 ≤ 1 - b.smoothing * (1 - γ)) (queued : queue ≤ queue') :
    newLimit b x γ queue ≤ newLimit b y γ queue' := by
  have slow := tuned.smoothing_nonneg
  rw [newLimit_line, newLimit_line]
  gcongr

theorem newLimit_sub_le {x y γ queue : ℚ} (le : x ≤ y) (rising : 0 ≤ 1 - b.smoothing * (1 - γ)) :
    newLimit b y γ queue - newLimit b x γ queue ≤ (y - x) * (1 - b.smoothing * (1 - γ)) := by
  rw [newLimit_line, newLimit_line]
  refine (clamp_sub_le (by gcongr)).trans (le_of_eq ?_)
  ring

/-- A sample that finds both caps in use moves both estimates along the same line, or neither. -/
theorem onSample_both {lower upper : Int} (alike : g.longRtt = g'.longRtt)
    (ordered : g.estimatedLimit ≤ g'.estimatedLimit)
    (used : 0 < s.rttNs → g'.estimatedLimit / 2 ≤ s.inflight) :
    (slope b g s = 1 ∧
        (g.onSample (b.startingAt lower) s).estimatedLimit = g.estimatedLimit ∧
        (g'.onSample (b.startingAt upper) s).estimatedLimit = g'.estimatedLimit) ∨
      ∃ γ, slope b g s = 1 - b.smoothing * (1 - γ) ∧
        (g.onSample (b.startingAt lower) s).estimatedLimit =
          newLimit b g.estimatedLimit γ (b.queueSizeFn (truncate g.estimatedLimit)) ∧
        (g'.onSample (b.startingAt upper) s).estimatedLimit =
          newLimit b g'.estimatedLimit γ (b.queueSizeFn (truncate g'.estimatedLimit)) := by
  rcases onSample_cases (b.startingAt lower) g s with
    ⟨unmeasured, kept, _⟩ | ⟨measured, _, ⟨limited, _⟩ | ⟨_, moved⟩⟩
  · rcases onSample_cases (b.startingAt upper) g' s with ⟨_, kept', _⟩ | ⟨measured, _⟩
    · exact .inl ⟨if_pos unmeasured, kept, kept'⟩
    · exact absurd measured (Int.not_lt.mpr unmeasured)
  · have half := used measured
    linarith
  · rcases onSample_cases (b.startingAt upper) g' s with
      ⟨unmeasured, _⟩ | ⟨_, _, ⟨limited, _⟩ | ⟨_, moved'⟩⟩
    · exact absurd measured (Int.not_lt.mpr unmeasured)
    · exact absurd (used measured) (not_le.mpr limited)
    · refine .inr ⟨_, if_neg (Int.not_le.mpr measured), moved, ?_⟩
      rw [moved', ← alike]
      rfl

theorem rising_of_slope (tuned : b.Tuned) {γ : ℚ} (same : slope b g s = 1 - b.smoothing * (1 - γ)) :
    0 ≤ 1 - b.smoothing * (1 - γ) := by
  have fast := tuned.smoothing_le_one
  have slope := (slope_bounds tuned g s).1
  rw [← same]
  linarith

theorem after_ordered (tuned : b.Tuned)
    (monotone : ∀ cap cap', cap ≤ cap' → b.queueSizeFn cap ≤ b.queueSizeFn cap')
    {lower upper : Int} (ordered : lower ≤ upper) {samples : List Sample}
    (busy : (b.startingAt upper).Busy samples) :
    ((b.startingAt lower).after samples).estimatedLimit ≤
      ((b.startingAt upper).after samples).estimatedLimit := by
  induction samples using List.reverseRecOn with
  | nil => exact Rat.intCast_le_intCast.mpr ordered
  | append_singleton samples s ih =>
    have below := ih busy.left
    rw [Builder.after_concat, Builder.after_concat]
    rcases onSample_both (b := b) (after_longRtt b lower upper samples) below
      (busy samples s [] rfl) with ⟨_, kept, kept'⟩ | ⟨γ, same, moved, moved'⟩
    · rwa [kept, kept']
    · rw [moved, moved']
      refine newLimit_ordered tuned below (rising_of_slope tuned same) ?_
      exact_mod_cast monotone _ _ (truncate_mono below)

theorem after_apart (tuned : b.Tuned) {q : Int} (constant : ∀ cap, b.queueSizeFn cap = q)
    {lower upper : Int} (ordered : lower ≤ upper) {samples : List Sample}
    (busy : (b.startingAt upper).Busy samples) :
    ((b.startingAt upper).after samples).estimatedLimit -
        ((b.startingAt lower).after samples).estimatedLimit ≤
      (upper - lower) * (b.startingAt lower).retained samples := by
  have monotone (cap cap' : Int) (_ : cap ≤ cap') : b.queueSizeFn cap ≤ b.queueSizeFn cap' := by
    rw [constant, constant]
  induction samples using List.reverseRecOn with
  | nil => exact le_of_eq (mul_one _).symm
  | append_singleton samples s ih =>
    have below := after_ordered tuned monotone ordered busy.left
    have apart := ih busy.left
    have scaled {slope : ℚ} (nonneg : 0 ≤ slope) := mul_le_mul_of_nonneg_right apart nonneg
    rw [Builder.after_concat, Builder.after_concat, Builder.retained_concat, ← mul_assoc]
    rcases onSample_both (b := b) (after_longRtt b lower upper samples) below
      (busy samples s [] rfl) with ⟨same, kept, kept'⟩ | ⟨γ, same, moved, moved'⟩
    · rw [slope_startingAt, same, mul_one, kept, kept']
      exact apart
    · have rising := rising_of_slope tuned same
      rw [slope_startingAt, same, moved, moved', constant, constant]
      exact (newLimit_sub_le below rising).trans (scaled rising)

theorem retained_bounds (tuned : b.Tuned) (samples : List Sample) :
    (1 - b.smoothing / 2) ^ samples.length ≤ b.retained samples ∧ b.retained samples ≤ 1 := by
  have fast := tuned.smoothing_le_one
  induction samples using List.reverseRecOn with
  | nil => simp [Builder.retained]
  | append_singleton samples s ih =>
    obtain ⟨low, high⟩ := slope_bounds tuned (b.after samples) s
    have half : 0 ≤ 1 - b.smoothing / 2 := by linarith
    have kept : 0 ≤ b.retained samples := (pow_nonneg half _).trans ih.1
    rw [Builder.retained_concat, List.length_append, List.length_singleton, pow_succ]
    exact ⟨mul_le_mul ih.1 low half kept, mul_le_one₀ ih.2 (half.trans low) high⟩

theorem after_limit (b : Builder) (samples : List Sample) :
    (b.after samples).limit = truncate (b.after samples).estimatedLimit :=
  Builder.after_invariant (P := fun g => g.limit = truncate g.estimatedLimit)
    (truncate_intCast b.initialLimit).symm (fun _ => onSample_limit b _ _) samples

/-- While no sample is app-limited, a higher starting cap never leads to a lower cap. What it
adds is forgotten: with a constant queue size no more is left of it than the gradients of the
samples leave, and that is the same for every starting cap. -/
theorem initialLimit_forgotten (b : Builder) (tuned : b.Tuned) (lower upper : Int)
    (ordered : lower ≤ upper)
    (monotone : ∀ cap cap', cap ≤ cap' → b.queueSizeFn cap ≤ b.queueSizeFn cap')
    (samples : List Sample) (busy : (b.startingAt upper).Busy samples) :
    ((b.startingAt lower).after samples).longRtt = ((b.startingAt upper).after samples).longRtt ∧
      ((b.startingAt lower).after samples).limit ≤ ((b.startingAt upper).after samples).limit ∧
      (∀ initialLimit, (b.startingAt initialLimit).retained samples = b.retained samples) ∧
      ∀ q : Int, (∀ cap, b.queueSizeFn cap = q) →
        ((b.startingAt upper).after samples).estimatedLimit -
            ((b.startingAt lower).after samples).estimatedLimit ≤
          (upper - lower) * (b.startingAt lower).retained samples ∧
        (b.startingAt lower).retained samples ≤ 1 := by
  refine ⟨after_longRtt b lower upper samples, ?_,
    fun initialLimit => retained_startingAt b initialLimit samples, fun q constant => ⟨?_, ?_⟩⟩
  · rw [after_limit, after_limit]
    exact truncate_mono (after_ordered tuned monotone ordered busy)
  · exact after_apart tuned constant ordered busy
  · have tuned : (b.startingAt lower).Tuned :=
      ⟨tuned.smoothing_nonneg, tuned.smoothing_le_one, tuned.tolerant, tuned.window⟩
    exact (retained_bounds tuned samples).2

/-- A constant queue size, no smoothing, and bounds that are out of the way. -/
def forgetful : Builder :=
  { minLimit := 1, maxConcurrency := 100, queueSizeFn := fun _ => 1, smoothing := 1 }

/-- The second sample is ten times as slow as the first and leaves 33 parts of 40. -/
theorem forgetful_forgets :
    ((forgetful.startingAt 8).after [⟨0, 1000, 9, false⟩, ⟨2000, 10000, 9, false⟩]).estimatedLimit -
        ((forgetful.startingAt 2).after
          [⟨0, 1000, 9, false⟩, ⟨2000, 10000, 9, false⟩]).estimatedLimit ≤ (8 - 2) * (33 / 40) := by
  have busy : (forgetful.startingAt 8).Busy [⟨0, 1000, 9, false⟩, ⟨2000, 10000, 9, false⟩] := by
    rintro (_ | ⟨first, _ | ⟨second, before⟩⟩) s after split <;> simp at split
    · obtain ⟨rfl, _⟩ := split
      exact fun _ => by decide +kernel
    · obtain ⟨rfl, rfl, _⟩ := split
      exact fun _ => by decide +kernel
  have left : (forgetful.startingAt 2).retained
      [⟨0, 1000, 9, false⟩, ⟨2000, 10000, 9, false⟩] = 33 / 40 := by decide +kernel
  have apart := (initialLimit_forgotten forgetful
    ⟨by norm_num [forgetful], by norm_num [forgetful], by norm_num [forgetful], by decide⟩ 2 8
    (by decide) (fun _ _ _ => le_rfl) _ busy).2.2.2 1 (fun _ => rfl)
  rw [left] at apart
  exact_mod_cast apart.1
end Limen.Gradient2Limit
