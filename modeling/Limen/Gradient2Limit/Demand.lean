import Limen.Gradient2Limit.Adaptation

/-! The cap does not run ahead of demand. The estimate grows only under a sample that finds at
least half of it in use, and then by no more than the smoothed queue size. -/
namespace Limen.Gradient2Limit
variable {b : Builder}

theorem ceilSqrt_le_iff {n k : Nat} : ceilSqrt n ≤ k ↔ n ≤ k * k := by
  constructor
  · intro le
    exact (le_ceilSqrt_mul_self n).trans (Nat.mul_le_mul le le)
  · intro le
    have root : n.sqrt ≤ k := by
      have roots := Nat.sqrt_le_sqrt le
      rwa [Nat.sqrt_eq] at roots
    rw [ceilSqrt]
    split
    · exact root
    · rename_i inexact
      refine Nat.lt_of_le_of_ne root ?_
      rintro rfl
      exact inexact (Nat.le_antisymm (Nat.sqrt_le n) le)

theorem defaultSqrtQueueSize_mono {cap cap' : Int} (le : cap ≤ cap') :
    defaultSqrtQueueSize cap ≤ defaultSqrtQueueSize cap' := by
  have larger : (max 0 cap).toNat ≤ (max 0 cap').toNat := by omega
  have roots : ceilSqrt (max 0 cap).toNat ≤ ceilSqrt (max 0 cap').toNat :=
    ceilSqrt_le_iff.mpr (larger.trans (le_ceilSqrt_mul_self _))
  rw [defaultSqrtQueueSize, defaultSqrtQueueSize]
  omega

/-- How far demand can take the estimate, with queue sizes up to `queue`. -/
def Builder.reach (b : Builder) (demand queue : Int) : ℚ :=
  max b.initialLimit (2 * demand + b.smoothing * queue)

theorem onSample_reach {g : Gradient2Limit} {s : Sample} {demand queue : Int}
    (floor : 0 ≤ b.minLimit) (tuned : b.Tuned) (bounded : b.Bounded) (bounds : InBounds b g)
    (queued : ∀ cap, cap ≤ 2 * demand → b.queueSizeFn cap ≤ queue) (asked : s.inflight ≤ demand)
    (before : g.estimatedLimit ≤ b.reach demand queue) :
    (g.onSample b s).estimatedLimit ≤ b.reach demand queue := by
  have lowest : (b.minLimit : ℚ) ≤ b.reach demand queue :=
    le_max_of_le_left (by exact_mod_cast bounded.floor)
  rcases onSample_estimate b g s with same | ⟨_, used, gradient, half, one, moved⟩
  · rwa [same]
  · have limited : g.estimatedLimit ≤ 2 * demand := by
      have asked : (s.inflight : ℚ) ≤ demand := by exact_mod_cast asked
      linarith
    have cap : truncate g.estimatedLimit ≤ 2 * demand := by
      rw [← truncate_intCast (2 * demand)]
      exact truncate_mono (by push_cast; exact limited)
    have small : (b.queueSizeFn (truncate g.estimatedLimit) : ℚ) ≤ queue := by
      exact_mod_cast queued _ cap
    have smoothed := (smoothed_bounds tuned (b.queueSizeFn (truncate g.estimatedLimit) : ℚ)
      (bounds.estimate_nonneg floor) half one).2
    rw [moved]
    refine newLimit_le_of lowest (smoothed.trans (le_max_of_le_right ?_))
    have slow := tuned.smoothing_nonneg
    gcongr

theorem after_reach {samples : List Sample} {demand queue : Int} (floor : 0 ≤ b.minLimit)
    (tuned : b.Tuned) (bounded : b.Bounded)
    (queued : ∀ cap, cap ≤ 2 * demand → b.queueSizeFn cap ≤ queue)
    (asked : ∀ s ∈ samples, s.inflight ≤ demand) :
    (b.after samples).estimatedLimit ≤ b.reach demand queue := by
  induction samples using List.reverseRecOn with
  | nil => exact le_max_left _ _
  | append_singleton samples s ih =>
    rw [Builder.after_concat]
    refine onSample_reach floor tuned bounded (after_inBounds bounded samples) queued
      (asked s (by simp)) (ih fun other member => asked other (List.mem_append_left _ member))

/-- The published cap is no more than the estimate. -/
theorem after_limit_le {samples : List Sample} (floor : 0 ≤ b.minLimit) (bounded : b.Bounded) :
    ((b.after samples).limit : ℚ) ≤ (b.after samples).estimatedLimit := by
  have bounds := after_inBounds bounded samples
  rw [bounds.published, truncate, if_pos (bounds.estimate_nonneg floor)]
  exact Int.floor_le _

/-- How far any number of samples can move the estimate, in either direction. -/
theorem after_moved {queue : Int} (floor : 0 ≤ b.minLimit) (bounded : b.Bounded) (tuned : b.Tuned)
    (nonneg : ∀ cap, 0 ≤ b.queueSizeFn cap) (queued : ∀ cap, cap ≤ b.maxConcurrency →
      b.queueSizeFn cap ≤ queue) (samples : List Sample) :
    b.initialLimit * (1 - b.smoothing / 2) ^ samples.length ≤ (b.after samples).estimatedLimit ∧
      (b.after samples).estimatedLimit ≤
        b.initialLimit + samples.length * (b.smoothing * queue) := by
  refine ⟨after_decay floor bounded tuned nonneg samples, ?_⟩
  induction samples using List.reverseRecOn with
  | nil => simp [Builder.after, Builder.build]
  | append_singleton samples s ih =>
    have bounds := after_inBounds bounded samples
    have small : (b.queueSizeFn (truncate (b.after samples).estimatedLimit) : ℚ) ≤ queue := by
      rw [← bounds.published]
      exact_mod_cast queued _ bounds.limit.2
    have smoothed := mul_le_mul_of_nonneg_left small tuned.smoothing_nonneg
    have step := (onSample_speed floor tuned bounds s (nonneg _)).2
    rw [Builder.after_concat, List.length_append, List.length_singleton, Nat.cast_succ, add_mul,
      one_mul]
    linarith
end Limen.Gradient2Limit
