import Limen.AbstractLimiter.Accounting
import Limen.Progress

/-! No call waits for another one. A call repeats an operation because others have changed what
it read, and every change is one of a bounded number that its own call makes. -/
namespace Limen.AbstractLimiter
open Transition
variable {Ctx σ π : Type}

/-- What `DoAcquire` has left to its call: the admission takes four operations more, two of
which change the gauge. -/
def Progress.need (n : Nat) (needs : π → Nat) : Progress π → Nat
  | .running pc => needs pc
  | .finished (some _) => 4 * n + 1
  | .finished none => 1

/-- What a call of one among `n` may still need while it is in `DoAcquire`. A change of the
gauge makes a value in hand stale, which costs a failed exchange and a check; changing it is
charged for all the other calls. -/
structure Budget (gate : Gate Ctx σ π) where
  need : Nat → Gauge σ → π → Nat
  whole : Nat → Nat
  entry : ∀ n gauge context, need n gauge (gate.entry context) ≤ whole n
  positive : ∀ n, 1 ≤ whole n
  disturbed : ∀ n gauge gauge' pc, need n gauge' pc ≤ need n gauge pc + 2
  limitChanged : ∀ n gauge value stores pc,
    need n { gauge with sub := gate.limitChanged value stores gauge.sub } pc ≤ need n gauge pc
  acquire : ∀ {n limit gauge pc spurious gauge' progress}, 1 ≤ n →
    gate.acquire limit gauge pc spurious = (gauge', progress) →
    ∃ d, (∀ other, need n gauge' other ≤ need n gauge other + d) ∧
      progress.need n (need n gauge') + 1 + d * (n - 1) ≤ need n gauge pc + 2 * spurious.toNat

namespace Budget
variable {gate : Gate Ctx σ π} (budget : Budget gate)

/-- Both decrements of a release change the gauge. -/
def needPhase (n : Nat) (gauge : Gauge σ) : Phase π → Nat
  | .acquiring pc => budget.need n gauge pc
  | .admitted _ => 4 * n + 1
  | .held _ | .decrementing _ => 4 * n
  | .releasingPartition _ => 2 * n + 1
  | .counting _ => 2
  | .bypassing | .rejecting | .sampling _ => 1
  | .rejected | .bypassed | .completed _ => 0

theorem needPhase_disturbed {n d : Nat} {gauge gauge' : Gauge σ}
    (disturbed : ∀ pc, budget.need n gauge' pc ≤ budget.need n gauge pc + d) (phase : Phase π) :
    budget.needPhase n gauge' phase ≤ budget.needPhase n gauge phase + d := by
  cases phase
  case acquiring pc => exact disturbed pc
  all_goals exact Nat.le_add_right _ d

/-- What an event pays for: a failure that is not owed to another call. -/
def spurious : Event Ctx → Bool
  | .advance _ input => input.spurious
  | _ => false

def advances : Event Ctx → Bool
  | .advance _ _ => true
  | _ => false

def arrives : Event Ctx → Bool
  | .tryAcquire _ => true
  | _ => false

theorem calls_eq (es : List (Event Ctx)) : calls es = es.countP arrives :=
  congrArg (es.countP ·) (funext fun e => by cases e <;> rfl)

theorem moves_spend {n i : Nat} {c c' : Counters σ} {e : Event Ctx} {phase phase' : Phase π}
    (some_call : 1 ≤ n) (moved : Moves gate i c e phase c' phase') :
    ∃ d, (∀ other, budget.needPhase n c'.toGauge other ≤
        budget.needPhase n c.toGauge other + d) ∧
      (advances e).toNat + budget.needPhase n c'.toGauge phase' + d * (n - 1) ≤
        budget.needPhase n c.toGauge phase + 2 * (spurious e).toNat := by
  cases moved with
  | complete op call own limited =>
    exact ⟨0, fun other => Nat.le_refl _, by simp [advances, spurious, needPhase]⟩
  | @advance _ _ _ input made advanced =>
    simp only [advances, spurious, Bool.toNat_true]
    -- All that leaves the gauge as it is has only to count down.
    have unchanged {phase phase' : Phase π}
        (own : 1 + budget.needPhase n c.toGauge phase' ≤ budget.needPhase n c.toGauge phase) :
        ∃ d, (∀ other, budget.needPhase n c.toGauge other ≤
            budget.needPhase n c.toGauge other + d) ∧
          1 + budget.needPhase n c.toGauge phase' + d * (n - 1) ≤
            budget.needPhase n c.toGauge phase + 2 * input.spurious.toNat := by
      refine ⟨0, fun other => Nat.le_refl _, ?_⟩
      omega
    cases phase <;> simp only [Phase.advance, Option.some.injEq, Prod.mk.injEq, reduceCtorEq]
      at advanced <;> obtain ⟨rfl, rfl, rfl⟩ := advanced
    case acquiring pc =>
      generalize acquired : gate.acquire c.limit c.toGauge pc input.spurious = done
      obtain ⟨gauge', progress⟩ := done
      obtain ⟨d, disturbed, own⟩ := budget.acquire some_call acquired
      refine ⟨d, budget.needPhase_disturbed disturbed, ?_⟩
      rcases progress with pc' | _ | result <;>
        simp only [Progress.phase, Progress.need, needPhase] at own ⊢ <;> omega
    case decrementing call =>
      refine ⟨2, budget.needPhase_disturbed (budget.disturbed n _ _), ?_⟩
      simp only [needPhase]
      omega
    case releasingPartition call =>
      refine ⟨2, budget.needPhase_disturbed (budget.disturbed n _ _), ?_⟩
      simp only [needPhase]
      omega
    case counting call =>
      refine unchanged ?_
      split <;> simp [needPhase]
    all_goals
      refine unchanged ?_
      simp only [needPhase]
      omega

def potential (n : Nat) (s : State Ctx σ π) : Nat :=
  (s.requests.map fun r => budget.needPhase n s.toGauge r.phase).sum

variable {l : Limiter Ctx σ π} (budget : Budget l.gate) {s t : State Ctx σ π} {limit : Int}

theorem step_spends {n : Nat} {e : Event Ctx} (valid : s.Valid) (few : s.requests.length ≤ n)
    (stepped : s.step l e = some t) :
    (advances e).toNat + budget.potential n t ≤
      budget.potential n s + (budget.whole n * (arrives e).toNat + 2 * (spurious e).toNat) := by
  rcases State.step_cases valid stepped with
    ⟨context, rfl, same, requests⟩ | ⟨i, r, phase, found, moved, requests⟩ |
      ⟨notAdvance, notArrival, requests, published, shared⟩
  · have entry : budget.needPhase n s.toGauge (l.enter context).phase ≤ budget.whole n := by
      rcases l.enter_phase context with bypassing | acquiring
      · rw [bypassing]
        exact budget.positive n
      · rw [acquiring]
        exact budget.entry n s.toGauge context
    simp only [potential, requests, same, List.map_append, List.map_singleton, List.sum_append,
      List.sum_singleton, advances, arrives, spurious, Bool.toNat_false, Bool.toNat_true]
    omega
  · have present := (List.getElem?_eq_some_iff.mp found).1
    obtain ⟨d, disturbed, own⟩ := budget.moves_spend (n := n) (by omega) moved
    have disturbs (other : Request Ctx π) (_ : other ∈ s.requests) :
        budget.needPhase n t.toGauge other.phase ≤ budget.needPhase n s.toGauge other.phase + d :=
      disturbed other.phase
    have total := Pool.sum_modify_le (f := Request.moveTo phase) disturbs found
    have fewer : d * (s.requests.length - 1) ≤ d * (n - 1) := Nat.mul_le_mul_left d (by omega)
    simp only [potential, requests]
    simp only [Request.moveTo] at total ⊢
    omega
  · have undisturbed (phase : Phase π) :
        budget.needPhase n t.toGauge phase ≤ budget.needPhase n s.toGauge phase + 0 := by
      refine budget.needPhase_disturbed (fun pc => ?_) phase
      rw [published]
      rcases shared with same | ⟨value, stores, stored⟩
      · rw [same]
        rfl
      · rw [stored]
        exact budget.limitChanged n s.toGauge value stores pc
    have kept := Pool.sum_map_le fun (r : Request Ctx π) (_ : r ∈ s.requests) => undisturbed r.phase
    have quiet : advances e = false := by
      cases e <;> first | rfl | exact absurd rfl (notAdvance _ _)
    rw [quiet, Bool.toNat_false]
    simp only [potential, requests]
    omega

/-- However many calls there are and however their operations interleave with each other and
with changes of the cap, they come to an end. -/
theorem countP_advances_le {es : List (Event Ctx)}
    (ran : run (State.step l) (State.start l.gate limit) es = some s) :
    es.countP advances ≤ calls es * budget.whole (calls es) + 2 * es.countP spurious := by
  have along : Along (State.step l) (fun s _ => s.Valid ∧ s.requests.length ≤ calls es)
      (State.start l.gate limit) es := by
    rw [along_iff]
    rintro before e after t rfl reached
    refine ⟨State.run_valid reached, ?_⟩
    rw [State.length_requests reached, calls_eq, calls_eq, List.countP_append]
    exact Nat.le_add_right _ _
  have spent : es.countP advances + budget.potential (calls es) s ≤
      budget.potential (calls es) (State.start l.gate limit) +
        (budget.whole (calls es) * es.countP arrives + 2 * es.countP spurious) :=
    countP_le _ (fun here stepped => budget.step_spends here.1 here.2 stepped) ran along
  have start : budget.potential (calls es) (State.start l.gate limit) = 0 := rfl
  rw [start, ← calls_eq, Nat.mul_comm (budget.whole _)] at spent
  omega
end Budget
end Limen.AbstractLimiter
