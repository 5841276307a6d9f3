import Limen.AbstractLimiter

/-! `SimpleLimiter::DoAcquire`: the compare-and-swap loop on the in-flight atomic. -/
namespace Limen.SimpleLimiter
open AbstractLimiter

/-- Before the first load, before `GetLimit`, and before the exchange. -/
inductive Pc where
  | load
  | check (current : Int)
  | exchange (current : Int)
  deriving DecidableEq, Repr

def doAcquire (limit : Int) (gauge : Gauge Unit) : Pc → Bool → Gauge Unit × Progress Pc
  | .load, _ => (gauge, .running (.check gauge.inflight))
  | .check current, _ =>
    (gauge, if current ≥ limit then .finished none else .running (.exchange current))
  | .exchange current, spurious =>
    if gauge.inflight = current ∧ ¬ spurious then
      ({ gauge with inflight := current + 1 }, .finished (some ⟨current + 1, -1⟩))
    -- A failed exchange updates `current` to the live value, and the loop re-reads the cap.
    else (gauge, .running (.check gauge.inflight))

theorem doAcquire_reserves {limit : Int} {gauge gauge' : Gauge Unit} {pc : Pc} {spurious : Bool}
    {result : AcquireResult}
    (acquired : doAcquire limit gauge pc spurious = (gauge', .finished (some result))) :
    pc = .exchange gauge.inflight ∧ gauge'.inflight = gauge.inflight + 1 ∧
      result.inflightPost = gauge.inflight + 1 := by
  cases pc with
  | load => simp [doAcquire] at acquired
  | check current =>
    simp only [doAcquire, Prod.mk.injEq] at acquired
    obtain ⟨_, progress⟩ := acquired
    split at progress <;> simp at progress
  | exchange current =>
    simp only [doAcquire] at acquired
    split at acquired
    · rename_i swapped
      obtain ⟨rfl, _⟩ := swapped
      cases acquired
      exact ⟨rfl, rfl, rfl⟩
    · simp at acquired

theorem doAcquire_keeps {limit : Int} {gauge gauge' : Gauge Unit} {pc : Pc} {spurious : Bool}
    {progress : Progress Pc} (acquired : doAcquire limit gauge pc spurious = (gauge', progress))
    (notAdmitted : ∀ result, progress ≠ .finished (some result)) : gauge' = gauge := by
  cases pc with
  | load => cases acquired; rfl
  | check current => cases acquired; rfl
  | exchange current =>
    simp only [doAcquire] at acquired
    split at acquired <;> cases acquired
    · exact absurd rfl (notAdmitted _)
    · rfl

def gate (Ctx : Type) : Gate Ctx Unit Pc where
  construct _ := ()
  entry _ := .load
  acquire := doAcquire
  onReleasePartition _ sub := sub
  callbackStores := 0
  limitChanged _ _ sub := sub
  reserves := by
    intro limit gauge pc spurious gauge' result acquired
    exact (doAcquire_reserves acquired).2
  keeps := by
    intro limit gauge pc spurious gauge' progress acquired notAdmitted
    rw [doAcquire_keeps acquired notAdmitted]

def limiter {Ctx : Type} (bypass : Ctx → Bool) : Limiter Ctx Unit Pc := ⟨gate Ctx, bypass⟩

def initial (Ctx : Type) (limit : Int) : State Ctx Unit Pc := State.start (gate Ctx) limit
end Limen.SimpleLimiter
