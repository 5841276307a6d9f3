import Limen.AbstractLimiter.LockFree
import Limen.SimpleLimiter.Linearizable

/-! The loop of `SimpleLimiter::DoAcquire` retries only after another call has gone through. -/
namespace Limen.SimpleLimiter
open AbstractLimiter Transition

def need (n : Nat) (gauge : Gauge Unit) : Pc → Nat
  | .load => 6 * n + 2
  | .check current => 6 * n + 1 + if gauge.inflight = current then 0 else 2
  | .exchange current => 6 * n + if gauge.inflight = current then 0 else 2

theorem need_disturbed (n : Nat) (gauge gauge' : Gauge Unit) (pc : Pc) :
    need n gauge' pc ≤ need n gauge pc + 2 := by
  cases pc <;> simp only [need] <;> grind

theorem doAcquire_spends {n : Nat} {limit : Int} {gauge gauge' : Gauge Unit} {pc : Pc}
    {spurious : Bool} {progress : Progress Pc} (some_call : 1 ≤ n)
    (acquired : doAcquire limit gauge pc spurious = (gauge', progress)) :
    ∃ d, (∀ other, need n gauge' other ≤ need n gauge other + d) ∧
      progress.need n (need n gauge') + 1 + d * (n - 1) ≤ need n gauge pc + 2 * spurious.toNat := by
  cases pc with
  | load =>
    cases acquired
    exact ⟨0, fun other => Nat.le_refl _, by simp [Progress.need, need]⟩
  | check current =>
    cases acquired
    refine ⟨0, fun other => Nat.le_refl _, ?_⟩
    split <;> simp only [Progress.need, need] <;> omega
  | exchange current =>
    simp only [doAcquire] at acquired
    split at acquired <;> cases acquired
    · refine ⟨2, need_disturbed n gauge _, ?_⟩
      simp only [Progress.need, need]
      omega
    · rename_i failed
      refine ⟨0, fun other => Nat.le_refl _, ?_⟩
      simp only [Progress.need, need, if_true]
      cases spurious with
      | true =>
        simp only [Bool.toNat_true]
        omega
      | false =>
        have stale : gauge.inflight ≠ current := fun fresh => failed ⟨fresh, by simp⟩
        rw [if_neg stale]
        omega

def budget (Ctx : Type) : Budget (gate Ctx) where
  need := need
  whole n := 6 * n + 2
  entry n gauge context := Nat.le_refl _
  positive n := by omega
  disturbed := need_disturbed
  limitChanged n gauge value stores pc := Nat.le_refl _
  acquire := doAcquire_spends

/-- `N` calls make no more than `N * (6 * N + 2)` atomic operations among them, and two for each
exchange that fails spuriously, however they interleave and however often the cap changes. -/
theorem loop_lock_free {Ctx : Type} {bypass : Ctx → Bool} {limit : Int} {es : List (Event Ctx)}
    {s : State Ctx Unit Pc}
    (ran : run (State.step (limiter bypass)) (initial Ctx limit) es = some s) :
    es.countP Budget.advances ≤ calls es * (6 * calls es + 2) + 2 * es.countP Budget.spurious :=
  (budget Ctx).countP_advances_le ran

/-- Two calls, with one failure of each kind. -/
theorem race_lock_free :
    race.countP Budget.advances ≤ calls race * (6 * calls race + 2) +
      2 * race.countP Budget.spurious := by
  obtain ⟨s, ran⟩ : ∃ s,
      run (State.step (limiter fun _ => false)) (initial Unit 1) race = some s := ⟨_, rfl⟩
  exact loop_lock_free ran
end Limen.SimpleLimiter
