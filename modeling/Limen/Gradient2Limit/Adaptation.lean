import Limen.Gradient2Limit.Shedding

/-! How far a sample can move the estimate, and how low any number of them can push it. The
clamp can turn either bound around, but not while the estimate is itself within it. -/
namespace Limen.Gradient2Limit
variable {b : Builder} {g : Gradient2Limit} {s : Sample}

theorem gradient_bounds (b : Builder) (longRtt shortRtt : ℚ) :
    1 / 2 ≤ gradient b longRtt shortRtt ∧ gradient b longRtt shortRtt ≤ 1 := by
  rw [gradient]
  exact ⟨le_max_left _ _, max_le (by norm_num) (min_le_left _ _)⟩

/-- The whole range of gradients between the half and the full one. -/
theorem smoothed_bounds (tuned : b.Tuned) {estimate gradient : ℚ} (queue : ℚ)
    (nonneg : 0 ≤ estimate) (half : 1 / 2 ≤ gradient) (one : gradient ≤ 1) :
    estimate * (1 - b.smoothing / 2) + b.smoothing * queue ≤
        estimate * (1 - b.smoothing) + (estimate * gradient + queue) * b.smoothing ∧
      estimate * (1 - b.smoothing) + (estimate * gradient + queue) * b.smoothing ≤
        estimate + b.smoothing * queue := by
  have scale : 0 ≤ estimate * b.smoothing := mul_nonneg nonneg tuned.smoothing_nonneg
  constructor
  · calc estimate * (1 - b.smoothing / 2) + b.smoothing * queue
        = estimate * (1 - b.smoothing) + queue * b.smoothing +
            estimate * b.smoothing * (1 / 2) := by ring
      _ ≤ estimate * (1 - b.smoothing) + queue * b.smoothing +
            estimate * b.smoothing * gradient := by gcongr
      _ = _ := by ring
  · calc estimate * (1 - b.smoothing) + (estimate * gradient + queue) * b.smoothing
        = estimate * (1 - b.smoothing) + queue * b.smoothing +
            estimate * b.smoothing * gradient := by ring
      _ ≤ estimate * (1 - b.smoothing) + queue * b.smoothing + estimate * b.smoothing * 1 := by
          gcongr
      _ = _ := by ring

/-- A sample that moves the estimate moves it by a gradient between the half and the full
one; any other leaves it alone. -/
theorem onSample_estimate (b : Builder) (g : Gradient2Limit) (s : Sample) :
    (g.onSample b s).estimatedLimit = g.estimatedLimit ∨
      (0 < s.rttNs ∧ g.estimatedLimit / 2 ≤ s.inflight ∧ ∃ gradient, 1 / 2 ≤ gradient ∧
        gradient ≤ 1 ∧ (g.onSample b s).estimatedLimit =
          newLimit b g.estimatedLimit gradient (b.queueSizeFn (truncate g.estimatedLimit))) := by
  rcases onSample_cases b g s with ⟨_, same, _⟩ | ⟨measured, _, ⟨_, same⟩ | ⟨used, moved⟩⟩
  · exact .inl same
  · exact .inl same
  · obtain ⟨half, one⟩ := gradient_bounds b (g.longRtt.add s.rttNs).value s.rttNs
    exact .inr ⟨measured, used, _, half, one, moved⟩

theorem InBounds.estimate_nonneg (floor : 0 ≤ b.minLimit) (bounds : InBounds b g) :
    0 ≤ g.estimatedLimit := by
  have : (0 : ℚ) ≤ b.minLimit := by exact_mod_cast floor
  exact this.trans bounds.floor

/-- One sample takes away at most half the smoothing factor and adds at most the smoothed
queue size. -/
theorem onSample_speed (floor : 0 ≤ b.minLimit) (tuned : b.Tuned) (bounds : InBounds b g)
    (s : Sample) (queue : 0 ≤ b.queueSizeFn (truncate g.estimatedLimit)) :
    g.estimatedLimit * (1 - b.smoothing / 2) ≤ (g.onSample b s).estimatedLimit ∧
      (g.onSample b s).estimatedLimit ≤
        g.estimatedLimit + b.smoothing * b.queueSizeFn (truncate g.estimatedLimit) := by
  have nonneg := bounds.estimate_nonneg floor
  have slow := tuned.smoothing_nonneg
  have queued : (0 : ℚ) ≤ b.queueSizeFn (truncate g.estimatedLimit) := by exact_mod_cast queue
  have shrinks : g.estimatedLimit * (1 - b.smoothing / 2) ≤ g.estimatedLimit :=
    mul_le_of_le_one_right nonneg (by linarith)
  have grows : g.estimatedLimit ≤
      g.estimatedLimit + b.smoothing * b.queueSizeFn (truncate g.estimatedLimit) :=
    le_add_of_nonneg_right (mul_nonneg slow queued)
  rcases onSample_estimate b g s with same | ⟨_, _, gradient, half, one, moved⟩
  · rw [same]
    exact ⟨shrinks, grows⟩
  · rw [moved]
    obtain ⟨low, high⟩ := smoothed_bounds tuned
      (b.queueSizeFn (truncate g.estimatedLimit) : ℚ) nonneg half one
    constructor
    · apply le_newLimit_of (shrinks.trans bounds.ceiling)
      exact (le_add_of_nonneg_right (mul_nonneg slow queued)).trans low
    · exact newLimit_le_of (bounds.floor.trans grows) high

theorem after_decay (floor : 0 ≤ b.minLimit) (bounded : b.Bounded) (tuned : b.Tuned)
    (queue : ∀ cap, 0 ≤ b.queueSizeFn cap) (samples : List Sample) :
    b.initialLimit * (1 - b.smoothing / 2) ^ samples.length ≤ (b.after samples).estimatedLimit := by
  have keeps : 0 ≤ 1 - b.smoothing / 2 := by linarith [tuned.smoothing_le_one]
  induction samples using List.reverseRecOn with
  | nil => simp [Builder.after, Builder.build]
  | append_singleton samples s ih =>
    rw [Builder.after_concat, List.length_append, List.length_singleton, pow_succ, ← mul_assoc]
    calc b.initialLimit * (1 - b.smoothing / 2) ^ samples.length * (1 - b.smoothing / 2)
        ≤ (b.after samples).estimatedLimit * (1 - b.smoothing / 2) := by gcongr
      _ ≤ _ := (onSample_speed floor tuned (after_inBounds bounded samples) s (queue _)).1

/-- From every reachable state a sample moves the estimate no faster than the smoothing
factor lets it, so that after any number of samples some of the starting cap is left; and
a sample that is skipped does not move it. -/
theorem bounded_adaptation (b : Builder) (floor : 0 ≤ b.minLimit) (bounded : b.Bounded)
    (tuned : b.Tuned) (queue : ∀ cap, 0 ≤ b.queueSizeFn cap) (samples : List Sample) :
    (∀ s,
      (b.after samples).estimatedLimit * (1 - b.smoothing / 2) ≤
          (b.after (samples ++ [s])).estimatedLimit ∧
        (b.after (samples ++ [s])).estimatedLimit ≤ (b.after samples).estimatedLimit +
          b.smoothing * b.queueSizeFn (truncate (b.after samples).estimatedLimit) ∧
        (s.rttNs ≤ 0 ∨ s.inflight < (b.after samples).estimatedLimit / 2 →
          (b.after (samples ++ [s])).estimatedLimit = (b.after samples).estimatedLimit)) ∧
      b.initialLimit * (1 - b.smoothing / 2) ^ samples.length ≤
        (b.after samples).estimatedLimit := by
  refine ⟨?_, after_decay floor bounded tuned queue samples⟩
  intro s
  rw [Builder.after_concat]
  obtain ⟨low, high⟩ := onSample_speed floor tuned (after_inBounds bounded samples) s (queue _)
  refine ⟨low, high, ?_⟩
  intro skipped
  rcases onSample_estimate b (b.after samples) s with same | ⟨measured, used, _⟩
  · exact same
  · rcases skipped with unmeasured | limited
    · exact absurd measured (Int.not_lt.mpr unmeasured)
    · exact absurd used (not_le.mpr limited)

/-- The defaults, after one sample that triples the RTT. -/
theorem default_adapts_slowly :
    (({} : Builder).after [⟨0, 1000, 20, false⟩]).estimatedLimit * (9 / 10) ≤
      (({} : Builder).after [⟨0, 1000, 20, false⟩, ⟨2000, 3000, 20, false⟩]).estimatedLimit := by
  have queue (cap : Int) : 0 ≤ ({} : Builder).queueSizeFn cap :=
    Int.le_trans (by decide) (defaultSqrtQueueSize_pos cap)
  have slow := ((bounded_adaptation {} (by decide) default_bounded default_tuned queue
    [⟨0, 1000, 20, false⟩]).1 ⟨2000, 3000, 20, false⟩).1
  norm_num at slow
  exact slow

section Floor

/-- A level of the estimate at which the queue size makes up for the halving. -/
theorem onSample_floor {level : ℚ} (floor : 0 ≤ b.minLimit) (tuned : b.Tuned)
    (bounds : InBounds b g) (ceiling : level ≤ b.maxConcurrency) (above : level ≤ g.estimatedLimit)
    (queue : level ≤ 2 * b.queueSizeFn (truncate g.estimatedLimit)) (s : Sample) :
    level ≤ (g.onSample b s).estimatedLimit := by
  rcases onSample_estimate b g s with same | ⟨_, _, gradient, half, one, moved⟩
  · rw [same]
    exact above
  · rw [moved]
    have slow := tuned.smoothing_nonneg
    have rest : 0 ≤ 1 - b.smoothing / 2 := by linarith [tuned.smoothing_le_one]
    apply le_newLimit_of ceiling
    calc level = level * (1 - b.smoothing / 2) + b.smoothing * (level / 2) := by ring
      _ ≤ g.estimatedLimit * (1 - b.smoothing / 2) +
          b.smoothing * b.queueSizeFn (truncate g.estimatedLimit) := by
        gcongr
        linarith
      _ ≤ _ := (smoothed_bounds tuned _ (bounds.estimate_nonneg floor) half one).1

theorem after_floor {level : ℚ} (floor : 0 ≤ b.minLimit) (bounded : b.Bounded) (tuned : b.Tuned)
    (start : level ≤ b.initialLimit)
    (queue : ∀ estimate, level ≤ estimate → level ≤ 2 * b.queueSizeFn (truncate estimate))
    (samples : List Sample) : level ≤ (b.after samples).estimatedLimit := by
  have ceiling : level ≤ b.maxConcurrency :=
    start.trans (Rat.intCast_le_intCast.mpr bounded.ceiling)
  induction samples using List.reverseRecOn with
  | nil => exact start
  | append_singleton samples s ih =>
    rw [Builder.after_concat]
    exact onSample_floor floor tuned (after_inBounds bounded samples) ceiling ih (queue _ ih) s

theorem le_ceilSqrt_mul_self (n : Nat) : n ≤ ceilSqrt n * ceilSqrt n := by
  rw [ceilSqrt]
  split
  · rename_i square
    exact square.ge
  · exact (Nat.lt_succ_sqrt n).le

theorem two_le_ceilSqrt {n : Nat} (large : 2 ≤ n) : 2 ≤ ceilSqrt n := by
  have above := le_ceilSqrt_mul_self n
  by_contra small
  have : ceilSqrt n * ceilSqrt n ≤ 1 * 1 := Nat.mul_le_mul (by omega) (by omega)
  omega

theorem two_le_defaultSqrtQueueSize {cap : Int} (large : 2 ≤ cap) :
    2 ≤ defaultSqrtQueueSize cap := by
  have root : 2 ≤ ceilSqrt (max 0 cap).toNat := two_le_ceilSqrt (by omega)
  exact le_max_of_le_right (by exact_mod_cast root)

/-- Up to four, half of a cap is no more than its default queue size. -/
theorem le_two_mul_defaultSqrtQueueSize {level cap : Int} (four : level ≤ 4) (below : level ≤ cap) :
    level ≤ 2 * defaultSqrtQueueSize cap := by
  have one := defaultSqrtQueueSize_pos cap
  by_cases large : 2 ≤ cap
  · have two := two_le_defaultSqrtQueueSize large
    omega
  · omega

/-- Whatever the latencies, halving cannot take the estimate below twice the queue size, nor
below four with the default one, unless it started there. -/
theorem cap_does_not_collapse (b : Builder) (floor : 0 ≤ b.minLimit) (bounded : b.Bounded)
    (tuned : b.Tuned) (samples : List Sample) :
    (∀ q : ℚ, 0 ≤ q → (∀ cap, q ≤ b.queueSizeFn cap) →
        min (b.initialLimit : ℚ) (2 * q) ≤ (b.after samples).estimatedLimit) ∧
      (b.queueSizeFn = defaultSqrtQueueSize →
        min (b.initialLimit : ℚ) 4 ≤ (b.after samples).estimatedLimit) := by
  constructor
  · intro q _ queue
    refine after_floor floor bounded tuned (min_le_left _ _) ?_ samples
    intro estimate _
    calc min (b.initialLimit : ℚ) (2 * q) ≤ 2 * q := min_le_right _ _
      _ ≤ 2 * b.queueSizeFn (truncate estimate) := by
        gcongr
        exact queue _
  · intro default
    refine after_floor floor bounded tuned (min_le_left _ _) ?_ samples
    intro estimate above
    have level : min (b.initialLimit : ℚ) 4 = (min b.initialLimit 4 : Int) := by push_cast; rfl
    rw [level] at above ⊢
    have below : min b.initialLimit 4 ≤ truncate estimate := by
      rw [← truncate_intCast (min b.initialLimit 4)]
      exact truncate_mono above
    rw [default]
    exact_mod_cast le_two_mul_defaultSqrtQueueSize (min_le_right _ _) below

/-- The defaults with no floor to speak of, and latency that goes up tenfold each time. -/
theorem unfloored_does_not_collapse :
    4 ≤ (({ minLimit := 0 } : Builder).after [⟨0, 10, 20, false⟩, ⟨0, 100, 20, false⟩,
      ⟨0, 1000, 20, false⟩, ⟨0, 10000, 20, false⟩]).estimatedLimit := by
  have kept := (cap_does_not_collapse { minLimit := 0 } (by decide) ⟨by decide, by decide⟩
    ⟨by norm_num, by norm_num, by norm_num, by decide⟩ [⟨0, 10, 20, false⟩, ⟨0, 100, 20, false⟩,
      ⟨0, 1000, 20, false⟩, ⟨0, 10000, 20, false⟩]).2 rfl
  norm_num at kept
  exact kept
end Floor
end Limen.Gradient2Limit
