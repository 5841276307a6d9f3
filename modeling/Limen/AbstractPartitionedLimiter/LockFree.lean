import Limen.AbstractLimiter.LockFree
import Limen.AbstractPartitionedLimiter.Conservation

/-! The two loops of a partitioned `DoAcquire`, on the busy counter of a partition and on the
number of delayed threads, retry only after another call has gone through. -/
namespace Limen.AbstractPartitionedLimiter
open AbstractLimiter Transition
variable {Ctx : Type}

def need (n : Nat) (gauge : Gauge Table) (pc : Pc) : Nat :=
  match pc.point with
  | .loadInflight => 6 * n + 5
  | .loadLimit _ => 6 * n + 4
  | .loadBusy => 6 * n + 3
  | .loadQuota current =>
    6 * n + 2 + if gauge.sub.busy pc.partitionIndex = current then 0 else 2
  | .exchange current =>
    6 * n + 1 + if gauge.sub.busy pc.partitionIndex = current then 0 else 2
  | .burst => 6 * n + 1
  | .reserve => 4 * n + 2
  | .loadDelayed => 4 * n + 1
  | .exchangeDelayed current => 4 * n + if gauge.sub.delayedThreads = current then 0 else 2
  | .sleep => 2 * n + 1
  | .wake => 2 * n

theorem need_disturbed (n : Nat) (gauge gauge' : Gauge Table) (pc : Pc) :
    need n gauge' pc ≤ need n gauge pc + 2 := by
  obtain ⟨p, point⟩ := pc
  cases point <;> simp only [need] <;> grind

theorem need_backoff {n : Nat} (config : Config Ctx) (gauge : Gauge Table) (p : Nat)
    (some_call : 1 ≤ n) :
    (Pc.progress p (config.backoff gauge.sub.delayedThreads)).need n (need n gauge) ≤ 4 * n := by
  rw [Config.backoff]
  split
  · simp [Pc.progress, Progress.need, need]
  · simp only [Pc.progress, Progress.need]
    omega

theorem operation_spends {n limit p} {config : Config Ctx} {gauge gauge' : Gauge Table}
    {point : Point} {spurious : Bool} {progress : Progress Point} (some_call : 1 ≤ n)
    (operated : config.operation limit gauge p spurious point = (gauge', progress)) :
    ∃ d, (∀ other, need n gauge' other ≤ need n gauge other + d) ∧
      (Pc.progress p progress).need n (need n gauge') + 1 + d * (n - 1) ≤
        need n gauge ⟨p, point⟩ + 2 * spurious.toNat := by
  have changed := need_disturbed n gauge
  -- All that changes neither counter has only to count down.
  have unchanged {gauge' : Gauge Table} {progress : Progress Point}
      (same : ∀ other, need n gauge' other = need n gauge other)
      (own : (Pc.progress p progress).need n (need n gauge) + 1 ≤
        need n gauge ⟨p, point⟩ + 2 * spurious.toNat) :
      ∃ d, (∀ other, need n gauge' other ≤ need n gauge other + d) ∧
        (Pc.progress p progress).need n (need n gauge') + 1 + d * (n - 1) ≤
          need n gauge ⟨p, point⟩ + 2 * spurious.toNat := by
    refine ⟨0, fun other => (same other).le, ?_⟩
    rwa [funext same, Nat.zero_mul, Nat.add_zero]
  -- A failure that is not spurious has found the value in hand stale.
  have stale {P : Prop} (failed : ¬ (P ∧ ¬ spurious)) : ¬ P ∨ spurious = true := by
    by_cases fresh : P
    · exact .inr (by_contra fun steady => failed ⟨fresh, steady⟩)
    · exact .inl fresh
  cases point <;> simp only [Config.operation] at operated
  case burst =>
    cases operated
    refine ⟨2, changed _, ?_⟩
    simp only [Pc.progress, Progress.need, need]
    omega
  case loadQuota current =>
    cases operated
    refine unchanged (fun _ => rfl) ?_
    split_ifs <;> simp only [Pc.progress, Progress.need, need] <;> omega
  case exchange current =>
    split at operated <;> cases operated
    · refine ⟨2, changed _, ?_⟩
      simp only [Pc.progress, Progress.need, need]
      omega
    · refine unchanged (fun _ => rfl) ?_
      simp only [Pc.progress, Progress.need, need, if_true]
      rcases stale ‹_› with moved | rfl
      · rw [if_neg moved]
        omega
      · simp only [Bool.toNat_true]
        omega
  case loadDelayed =>
    cases operated
    have tried := need_backoff config gauge p some_call
    refine unchanged (fun _ => rfl) ?_
    simp only [need] at tried ⊢
    omega
  case exchangeDelayed current =>
    split at operated <;> cases operated
    · refine ⟨2, changed _, ?_⟩
      simp only [Pc.progress, Progress.need, need]
      omega
    · have tried := need_backoff config gauge p some_call
      refine unchanged (fun _ => rfl) ?_
      rcases stale ‹_› with moved | rfl
      · simp only [need, if_neg moved] at tried ⊢
        omega
      · simp only [need, Bool.toNat_true] at tried ⊢
        omega
  case wake =>
    cases operated
    refine ⟨2, changed _, ?_⟩
    simp only [Pc.progress, Progress.need, need]
    omega
  case loadLimit inflight =>
    cases operated
    refine unchanged (fun _ => rfl) ?_
    split <;> simp only [Pc.progress, Progress.need, need] <;> omega
  all_goals
    cases operated
    refine unchanged (fun _ => rfl) ?_
    simp only [Pc.progress, Progress.need, need, if_true]
    omega

def budget (config : Config Ctx) : Budget (gate config) where
  need := need
  whole n := 6 * n + 5
  entry n gauge context := Nat.le_refl _
  positive n := by omega
  disturbed := need_disturbed
  limitChanged n gauge value stores pc := Nat.le_refl _
  acquire some_call acquired := by
    cases acquired
    exact operation_spends some_call rfl

/-- As for the unpartitioned limiter, with a reject delay as one operation of its call. -/
theorem partitioned_loops_lock_free {config : Config Ctx} {bypass : Ctx → Bool} {limit : Int}
    {es : List (Event Ctx)} {s : State Ctx Table Pc}
    (ran : run (State.step (limiter config bypass)) (initial config limit) es = some s) :
    es.countP Budget.advances ≤ calls es * (6 * calls es + 5) + 2 * es.countP Budget.spurious :=
  (budget config).countP_advances_le ran

theorem overlap_lock_free :
    overlap.countP Budget.advances ≤ calls overlap * (6 * calls overlap + 5) +
      2 * overlap.countP Budget.spurious := by
  obtain ⟨s, ran⟩ : ∃ s,
      run (State.step (limiter twoHalves fun _ => false)) (initial twoHalves 2) overlap = some s :=
    ⟨_, rfl⟩
  exact partitioned_loops_lock_free ran
end Limen.AbstractPartitionedLimiter
