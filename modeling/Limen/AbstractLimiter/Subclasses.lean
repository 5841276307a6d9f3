import Limen.AbstractLimiter.Bypass
import Limen.AbstractPartitionedLimiter.Conservation
import Limen.SimpleLimiter.Linearizable

/-! What holds of every subclass, for the two limiters that implement the contract of
`DoAcquire`. -/
namespace Limen.AbstractLimiter
open Transition State
variable {Ctx : Type}

/-- In both limiters, for every bypass predicate and every interleaving of calls, guard
operations and cap changes, each call is accounted for exactly once. -/
theorem calls_accounted (bypass : Ctx → Bool) (limit : Int) (es : List (Event Ctx)) :
    (∀ s, run (step (SimpleLimiter.limiter bypass)) (SimpleLimiter.initial Ctx limit) es = some s →
      Accounted (SimpleLimiter.limiter bypass) limit es s) ∧
    ∀ (config : AbstractPartitionedLimiter.Config Ctx) s,
      run (step (AbstractPartitionedLimiter.limiter config bypass))
        (AbstractPartitionedLimiter.initial config limit) es = some s →
      Accounted (AbstractPartitionedLimiter.limiter config bypass) limit es s :=
  ⟨fun _ ran => run_accounted ran, fun _ _ ran => run_accounted ran⟩

/-- A bypassed call, a dropped one and, while that is outstanding, a rejected one. -/
def mixed : List (Event Bool) :=
  [.tryAcquire true, .advance 0 { addr := 0 }, .tryAcquire false, .advance 1 {}, .advance 1 {},
    .advance 1 {}, .advance 1 { now := 5, addr := 1 }, .tryAcquire false, .advance 2 {},
    .advance 2 {}, .advance 2 {}, .guard (.complete 1 .dropped), .advance 1 {}, .advance 1 {},
    .advance 1 {}, .guard (.destroy 0), .advance 1 { now := 9 }]

theorem mixed_accounted : ∃ s,
    run (step (SimpleLimiter.limiter id)) (SimpleLimiter.initial Bool 1) mixed = some s ∧
    s.Settled ∧ s.samples = [⟨5, 4, 1, true⟩] ∧
    3 = (statuses.map s.outcomeCounts).sum + s.outstandingSlots.ncard := by
  obtain ⟨s, ran, settled, samples⟩ : ∃ s,
      run (step (SimpleLimiter.limiter id)) (SimpleLimiter.initial Bool 1) mixed = some s ∧
      s.Settled ∧ s.samples = [⟨5, 4, 1, true⟩] := ⟨_, rfl, by unfold Settled; decide, rfl⟩
  exact ⟨s, ran, settled, samples, ((calls_accounted id 1 mixed).1 s ran).total settled⟩

/-- In both limiters, for every bypass predicate and every interleaving of calls, guard
operations and cap changes, bypassed calls can be left out of the run: no other call is
decided otherwise, and nothing the limiter keeps or feeds to the algorithm changes. -/
theorem bypass_invisible (bypass : Ctx → Bool) (limit : Int) (es : List (Event Ctx)) :
    BypassInvisible (SimpleLimiter.limiter bypass) limit es ∧
      ∀ config : AbstractPartitionedLimiter.Config Ctx,
        BypassInvisible (AbstractPartitionedLimiter.limiter config bypass) limit es :=
  ⟨bypassInvisible _ limit es, fun _ => bypassInvisible _ limit es⟩

-- The bypassed call was the first, so the others move up by one.
example : withoutBypassed (SimpleLimiter.limiter id) 1 mixed =
    [.tryAcquire false, .advance 0 {}, .advance 0 {}, .advance 0 {},
      .advance 0 { now := 5, addr := 1 }, .tryAcquire false, .advance 1 {}, .advance 1 {},
      .advance 1 {}, .guard (.complete 1 .dropped), .advance 0 {}, .advance 0 {}, .advance 0 {},
      .advance 0 { now := 9 }] := by decide
end Limen.AbstractLimiter
