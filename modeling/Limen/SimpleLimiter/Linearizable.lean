import Limen.AbstractLimiter.Accounting
import Limen.Semaphore
import Limen.SimpleLimiter

/-! The gate under every interleaving: each admission is justified by a cap read during the
same call, and under a constant cap the calls take effect as on an atomic semaphore. -/
namespace Limen.SimpleLimiter
open AbstractLimiter AbstractLimiter.State Transition
variable {Ctx : Type} {bypass : Ctx → Bool} {limit : Int} {es : List (Event Ctx)}
  {s t : State Ctx Unit Pc}

/-- Call `i` is inside `DoAcquire`. -/
def Acquiring (s : State Ctx Unit Pc) (i : Nat) : Prop :=
  ∃ r pc, s.requests[i]? = some r ∧ r.phase = .acquiring pc

/-- A step that raises the counter is a successful exchange of one call, by one. -/
theorem raise_cases {i : Nat} {c c' : Counters Unit} {e : Event Ctx} {phase phase' : Phase Pc}
    (moved : Moves (gate Ctx) i c e phase c' phase') (raised : c.inflight < c'.inflight) :
    (∃ input, e = .advance i input) ∧ phase = .acquiring (.exchange c.inflight) ∧
      c'.inflight = c.inflight + 1 := by
  have balance := moves_inflight moved
  cases moved with
  | complete op call own limited => exact absurd raised (lt_irrefl _)
  | advance advanced =>
    rename_i input made
    refine ⟨⟨input, rfl⟩, ?_⟩
    cases phase <;> simp only [Phase.advance, Option.some.injEq, Prod.mk.injEq, reduceCtorEq]
      at advanced <;> obtain ⟨rfl, rfl, rfl⟩ := advanced
    case acquiring pc =>
      rcases acquired : (gate Ctx).acquire c.limit c.toGauge pc input.spurious with
        ⟨gauge, progress⟩
      simp only [acquired] at raised ⊢
      by_cases admitted : ∃ result, progress = .finished (some result)
      · obtain ⟨result, rfl⟩ := admitted
        obtain ⟨rfl, post, _⟩ := doAcquire_reserves acquired
        exact ⟨rfl, post⟩
      · have same := doAcquire_keeps acquired fun result finished => admitted ⟨result, finished⟩
        rw [same] at raised
        exact absurd raised (lt_irrefl _)
    case admitted result => exact absurd raised (lt_irrefl _)
    case decrementing call =>
      simp only at raised
      omega
    all_goals exact absurd raised (lt_irrefl _)

/-- How a call comes to stand before the exchange with `current`: it read, one step
earlier, a cap above it. -/
theorem exchange_origin {i : Nat} {c c' : Counters Unit} {e : Event Ctx} {phase phase' : Phase Pc}
    {current : Int} (moved : Moves (gate Ctx) i c e phase c' phase')
    (atExchange : phase' = .acquiring (.exchange current)) :
    phase = .acquiring (.check current) ∧ current < c.limit := by
  subst atExchange
  cases moved with
  | advance advanced =>
    rename_i input made
    cases phase <;> simp only [Phase.advance, Option.some.injEq, Prod.mk.injEq, reduceCtorEq,
      false_and, and_false] at advanced
    case acquiring pc =>
      obtain ⟨_, progress, _⟩ := advanced
      cases pc with
      | load => simp [gate, doAcquire, Progress.phase] at progress
      | check loaded =>
        simp only [gate, doAcquire] at progress
        split at progress
        · simp [Progress.phase] at progress
        · simp only [Progress.phase, Phase.acquiring.injEq, Pc.exchange.injEq] at progress
          subst progress
          exact ⟨rfl, by omega⟩
      | exchange loaded =>
        simp only [gate, doAcquire] at progress
        split at progress <;> simp [Progress.phase] at progress
    case counting call =>
      obtain ⟨_, next, _⟩ := advanced
      split at next <;> contradiction

/-- A call about to exchange `current` has itself seen a cap above it. -/
theorem exchange_justified
    (ran : run (step (limiter bypass)) (initial Ctx limit) es = some s) {i : Nat}
    {r : Request Ctx Pc} {current : Int} (found : s.requests[i]? = some r)
    (atExchange : r.phase = .acquiring (.exchange current)) :
    ∃ u, Visits (step (limiter bypass)) (initial Ctx limit) es u ∧ Acquiring u i ∧
      current < u.limit := by
  refine history (P := fun es s => ∀ i r current, s.requests[i]? = some r →
    r.phase = .acquiring (.exchange current) →
    ∃ u, Visits (step (limiter bypass)) (initial Ctx limit) es u ∧ Acquiring u i ∧
      current < u.limit) ?_ ?_ ran i r current found atExchange
  · simp [initial, start]
  · intro es s e t before justified stepped j r current found atExchange
    have earlier {r' : Request Ctx Pc} (found' : s.requests[j]? = some r')
        (same : r'.phase = .acquiring (.exchange current)) :
        ∃ u, Visits (step (limiter bypass)) (initial Ctx limit) (es ++ [e]) u ∧ Acquiring u j ∧
          current < u.limit := by
      obtain ⟨u, visits, acquiring, below⟩ := justified j r' current found' same
      exact ⟨u, visits.append [e], acquiring, below⟩
    rcases step_cases (run_valid before) stepped with
      ⟨context, _, _, requests⟩ | ⟨i, r', phase, here, moved, requests⟩ | ⟨_, _, requests, _⟩
    · rw [requests] at found
      rcases Pool.getElem?_concat_eq_some.mp found with old | ⟨_, rfl⟩
      · exact earlier old atExchange
      · rcases (limiter bypass).enter_phase context with phase | phase <;>
          rw [phase] at atExchange <;> cases atExchange
    · rw [requests] at found
      rcases Pool.getElem?_modify_cases here found with ⟨rfl, rfl⟩ | ⟨_, old⟩
      · obtain ⟨checked, below⟩ := exchange_origin moved atExchange
        exact ⟨s, (visits_last before).append [e], ⟨r', _, here, checked⟩, below⟩
      · exact earlier old atExchange
    · rw [requests] at found
      exact earlier found atExchange

theorem raise_justified {e : Event Ctx}
    (ran : run (step (limiter bypass)) (initial Ctx limit) es = some s)
    (stepped : s.step (limiter bypass) e = some t) (raised : s.inflight < t.inflight) :
    ∃ i input, e = .advance i input ∧ t.inflight = s.inflight + 1 ∧
      ∃ u, Visits (step (limiter bypass)) (initial Ctx limit) es u ∧ Acquiring u i ∧
        s.inflight < u.limit := by
  rcases step_cases (run_valid ran) stepped with
    ⟨_, _, same, _⟩ | ⟨i, r, phase, found, moved, _⟩ | ⟨_, _, _, changed, _⟩
  · rw [same] at raised
    exact absurd raised (lt_irrefl _)
  · obtain ⟨⟨input, rfl⟩, atExchange, post⟩ := raise_cases moved raised
    exact ⟨i, input, rfl, post, exchange_justified ran found atExchange⟩
  · rw [changed] at raised
    exact absurd raised (lt_irrefl _)

theorem inflight_bounded (ran : run (step (limiter bypass)) (initial Ctx limit) es = some s) :
    ∃ u, Visits (step (limiter bypass)) (initial Ctx limit) es u ∧
      s.inflight ≤ max 0 u.limit := by
  refine history (P := fun es s => ∃ u, Visits (step (limiter bypass)) (initial Ctx limit) es u ∧
    s.inflight ≤ max 0 u.limit) ⟨_, visits_last rfl, le_max_left 0 _⟩ ?_ ran
  rintro es s e t before ⟨u, visits, bounded⟩ stepped
  by_cases raised : s.inflight < t.inflight
  · obtain ⟨i, input, rfl, post, u', visits', _, below⟩ := raise_justified before stepped raised
    exact ⟨u', visits'.append _, by omega⟩
  · exact ⟨u, visits.append _, by omega⟩

/-- In a run whose cap changes all set `limit`, the cap is `limit` throughout. -/
theorem limit_constant (ran : run (step (limiter bypass)) (initial Ctx limit) es = some s)
    (constant : ∀ value, .setLimit value ∈ es → value = limit) : s.limit = limit := by
  revert constant
  refine history (P := fun es s => (∀ value, .setLimit value ∈ es → value = limit) →
    s.limit = limit) (fun _ => rfl) ?_ ran
  intro es s e t before same stepped constant
  have sameBefore : s.limit = limit :=
    same fun value member => constant value (List.mem_append_left _ member)
  cases e with
  | tryAcquire context =>
    cases stepped
    exact sameBefore
  | advance i input =>
    obtain ⟨r, c, phase, made, heap, _, advanced, _, rfl⟩ := step_advance stepped
    exact (advance_limit advanced).trans sameBefore
  | guard op =>
    obtain ⟨heap, completion, _, rfl⟩ := step_guard stepped
    exact sameBefore
  | setLimit value =>
    have only : value = limit := constant value (by simp)
    simp only [step] at stepped
    split at stepped
    · contradiction
    · split at stepped <;> cases stepped
      · exact sameBefore
      · exact only
  | notify =>
    simp only [step] at stepped
    split at stepped
    · contradiction
    · split at stepped <;> cases stepped <;> exact sameBefore

theorem visited_limit {u : State Ctx Unit Pc}
    (constant : ∀ value, .setLimit value ∈ es → value = limit)
    (visits : Visits (step (limiter bypass)) (initial Ctx limit) es u) : u.limit = limit := by
  obtain ⟨before, after, rfl, ran⟩ := visits
  exact limit_constant ran fun value member => constant value (List.mem_append_left _ member)

/-- The semaphore operation that takes effect at a step, from the counter before and after
it and the point the call reaches. An admission and a release are the changes of the
counter; a rejection is the load, or the failed exchange, that leaves the call with a value
at or above the capacity. -/
def takesEffect (capacity before after : Int) (phase : Phase Pc) : List Semaphore.Op :=
  if before < after then [.acquire true]
  else if after < before then [.release]
  else match phase with
    | .acquiring (.check current) => if capacity ≤ current then [.acquire false] else []
    | _ => []

/-- The operations in the order in which they take effect, each under the call at whose
step it does. -/
def linearization (bypass : Ctx → Bool) (limit : Int) (es : List (Event Ctx)) :
    List (Nat × Semaphore.Op) :=
  log (limiter bypass) limit
    (fun c c' phase => takesEffect limit c.inflight c'.inflight phase) es

/-- The semaphore operations of a call that has come this far. -/
def operations (capacity : Int) : Phase Pc → List Semaphore.Op
  | .acquiring (.check current) => if capacity ≤ current then [.acquire false] else []
  | .acquiring _ | .bypassing | .bypassed => []
  | .rejecting | .rejected => [.acquire false]
  | .admitted _ | .held _ | .decrementing _ => [.acquire true]
  | .releasingPartition _ | .counting _ | .sampling _ | .completed _ => [.acquire true, .release]

/-- One atomic operation of a call performs at most one operation of the semaphore, on the
count the call finds, and adds it to what the call has done. -/
theorem advance_effect {c c' : Counters Unit} {phase phase' : Phase Pc} {input : Input}
    {made : Option (Slot Unit)}
    (advanced : phase.advance (gate Ctx) c input = some (c', phase', made))
    (positive : phase.outstanding → 0 < c.inflight)
    (below : ∀ current, phase = .acquiring (.exchange current) → current < c.limit) :
    ∃ ops, takesEffect c.limit c.inflight c'.inflight phase' = ops ∧
      operations c.limit phase' = operations c.limit phase ++ ops ∧
      run (Semaphore.step c.limit) c.inflight ops = some c'.inflight := by
  cases phase <;> simp only [Phase.advance, Option.some.injEq, Prod.mk.injEq, reduceCtorEq]
    at advanced <;> obtain ⟨rfl, rfl, rfl⟩ := advanced
  case acquiring pc =>
    cases pc with
    | load =>
      by_cases full : c.limit ≤ c.inflight
      · exact ⟨[.acquire false], by simp [gate, doAcquire, Progress.phase, takesEffect, full],
          by simp [gate, doAcquire, Progress.phase, operations, full],
          by simp [gate, doAcquire, run, Semaphore.step, full]⟩
      · exact ⟨[], by simp [gate, doAcquire, Progress.phase, takesEffect, full],
          by simp [gate, doAcquire, Progress.phase, operations, full], rfl⟩
    | check current =>
      refine ⟨[], ?_, ?_, rfl⟩
      · by_cases full : c.limit ≤ current <;>
          simp [gate, doAcquire, Progress.phase, takesEffect, full]
      · by_cases full : c.limit ≤ current <;>
          simp [gate, doAcquire, Progress.phase, operations, full]
    | exchange current =>
      by_cases swapped : c.inflight = current ∧ ¬ input.spurious
      · have free : c.inflight < c.limit := swapped.1 ▸ below current rfl
        have acquired : (gate Ctx).acquire c.limit c.toGauge (.exchange current) input.spurious =
            (⟨c.inflight + 1, c.sub⟩, .finished (some ⟨c.inflight + 1, -1⟩)) := by
          obtain ⟨rfl, notSpurious⟩ := swapped
          simp [gate, doAcquire, notSpurious]
        rw [acquired]
        exact ⟨[.acquire true], by simp [takesEffect], rfl, by simp [run, Semaphore.step, free]⟩
      · have acquired : (gate Ctx).acquire c.limit c.toGauge (.exchange current) input.spurious =
            (c.toGauge, .running (.check c.inflight)) := if_neg swapped
        rw [acquired]
        by_cases full : c.limit ≤ c.inflight
        · exact ⟨[.acquire false], by simp [Progress.phase, takesEffect, full],
            by simp [Progress.phase, operations, full], by simp [run, Semaphore.step, full]⟩
        · exact ⟨[], by simp [Progress.phase, takesEffect, full],
            by simp [Progress.phase, operations, full], rfl⟩
  case decrementing call =>
    have held := positive rfl
    refine ⟨[.release], ?_, rfl, by simp [run, Semaphore.step, held]⟩
    unfold takesEffect
    rw [if_neg (by simp only [not_lt]; omega), if_pos (by simp only; omega)]
  case counting call =>
    obtain ⟨id, slot, status⟩ := call
    cases status <;>
      exact ⟨[], by simp [Counters.count, toOutcomeStatus, takesEffect], rfl, rfl⟩
  all_goals exact ⟨[], by simp [Counters.count, takesEffect], rfl, rfl⟩

/-- The premises of `advance_effect` in a run under a constant cap. -/
theorem effect_of_run {i : Nat} {r : Request Ctx Pc} {input : Input} {c : Counters Unit}
    {phase : Phase Pc} {made : Option (Slot Unit)}
    (ran : run (step (limiter bypass)) (initial Ctx limit) es = some s)
    (constant : ∀ value, .setLimit value ∈ es → value = limit)
    (found : s.requests[i]? = some r)
    (advanced : r.phase.advance (gate Ctx) s.toCounters input = some (c, phase, made)) :
    operations limit phase =
        operations limit r.phase ++ takesEffect limit s.inflight c.inflight phase ∧
      run (Semaphore.step limit) s.inflight (takesEffect limit s.inflight c.inflight phase) =
        some c.inflight := by
  have cap : s.limit = limit := limit_constant ran constant
  have positive : r.phase.outstanding → 0 < s.inflight := by
    intro outstanding
    rw [inflight_eq ran, Int.natCast_pos, List.countP_pos_iff]
    exact ⟨r, List.mem_of_getElem? found, outstanding⟩
  have below : ∀ current, r.phase = .acquiring (.exchange current) → current < s.limit := by
    intro current atExchange
    obtain ⟨u, visits, _, below⟩ := exchange_justified ran found atExchange
    rwa [visited_limit constant visits, ← cap] at below
  obtain ⟨ops, effected, extended, performed⟩ := advance_effect advanced positive below
  rw [cap] at effected extended performed
  rw [effected]
  exact ⟨extended, performed⟩

theorem run_operations (ran : run (step (limiter bypass)) (initial Ctx limit) es = some s)
    (constant : ∀ value, .setLimit value ∈ es → value = limit) :
    Credited (fun r ops => ops = operations limit r.phase) (linearization bypass limit es) s := by
  refine run_credited ?_ ?_ ?_ ran
  · intro context
    rcases (limiter bypass).enter_phase context with phase | phase <;> rw [phase] <;> rfl
  · rintro before s i r input c phase made seen within ran found advanced rfl
    have constantBefore : ∀ value, .setLimit value ∈ before → value = limit :=
      fun value member => constant value (within.subset member)
    exact (effect_of_run ran constantBefore found advanced).1.symm
  · rintro r call seen atHeld rfl
    rw [atHeld]
    rfl

theorem run_replayed (ran : run (step (limiter bypass)) (initial Ctx limit) es = some s)
    (constant : ∀ value, .setLimit value ∈ es → value = limit) :
    Semaphore.replay limit (linearization bypass limit es) = some s.inflight := by
  revert constant
  refine history (P := fun es s => (∀ value, .setLimit value ∈ es → value = limit) →
    Semaphore.replay limit (linearization bypass limit es) = some s.inflight) (fun _ => rfl) ?_ ran
  intro es s e t before ih stepped constant
  have constantBefore : ∀ value, .setLimit value ∈ es → value = limit :=
    fun value member => constant value (List.mem_append_left _ member)
  have replayed := ih constantBefore
  rw [linearization, log_concat before stepped]
  rcases step_cases (run_valid before) stepped with
    ⟨context, rfl, same, _⟩ | ⟨i, r, phase, found, moved, requests⟩ | ⟨other, _, _, changed, _⟩
  · rw [credit_other (by simp), List.append_nil, same]
    exact replayed
  · rcases moved.cases with ⟨input, made, rfl, advanced⟩ | ⟨op, call, rfl, _, _, same, _⟩
    · rw [credit_advance found requests]
      exact Semaphore.replay_append replayed
        (effect_of_run before constantBefore found advanced).2
    · rw [credit_other (by simp), List.append_nil, same]
      exact replayed
  · rw [credit_other other, List.append_nil, changed]
    exact replayed

/-- The gate is a counting semaphore. Every step that raises the counter is one call's
exchange, from a value below a cap that was in effect during the same call; so the counter
stays within the caps there have been. Under a constant cap the counter stays within it and
the calls take effect, each at its own steps, in an order that the atomic semaphore allows:
a rejected call is one refused attempt, an admitted call one granted attempt. -/
theorem gate_is_semaphore (ran : run (step (limiter bypass)) (initial Ctx limit) es = some s) :
    (∀ e t, s.step (limiter bypass) e = some t → s.inflight < t.inflight →
      ∃ i input, e = .advance i input ∧ t.inflight = s.inflight + 1 ∧
        ∃ u, Visits (step (limiter bypass)) (initial Ctx limit) es u ∧ Acquiring u i ∧
          s.inflight < u.limit) ∧
    (∃ u, Visits (step (limiter bypass)) (initial Ctx limit) es u ∧
      s.inflight ≤ max 0 u.limit) ∧
    (0 ≤ limit → (∀ value, .setLimit value ∈ es → value = limit) →
      s.inflight ≤ limit ∧
      Semaphore.replay limit (linearization bypass limit es) = some s.inflight ∧
      ∀ (i : Nat) r, s.requests[i]? = some r →
        about i (linearization bypass limit es) = operations limit r.phase) := by
  refine ⟨fun e t stepped raised => raise_justified ran stepped raised, inflight_bounded ran, ?_⟩
  intro nonnegative constant
  refine ⟨?_, run_replayed ran constant,
    fun i r found => (run_operations ran constant).each i r found⟩
  obtain ⟨u, visits, bounded⟩ := inflight_bounded ran
  rw [visited_limit constant visits] at bounded
  omega

/-- Two calls race for one slot; the loser's exchange fails once spuriously and once
because the winner got there first. -/
def race : List (Event Unit) :=
  [.tryAcquire (), .tryAcquire (), .advance 0 {}, .advance 1 {}, .advance 0 {}, .advance 1 {},
    .advance 1 { spurious := true }, .advance 0 {}, .advance 1 {}, .advance 1 {}, .advance 1 {},
    .advance 0 {}, .advance 1 {}]

theorem race_is_semaphore : ∃ s,
    run (step (limiter fun _ => false)) (initial Unit 1) race = some s ∧ (0 : Int) ≤ 1 ∧
    (∀ value, .setLimit value ∈ race → value = 1) ∧ s.inflight ≤ 1 ∧
    about 0 (linearization (fun _ => false) 1 race) = [.acquire true] ∧
    about 1 (linearization (fun _ => false) 1 race) = [.acquire false] := by
  obtain ⟨s, ran, ⟨r, atZero, admitted⟩, ⟨r', atOne, rejected⟩⟩ : ∃ s,
      run (step (limiter fun _ => false)) (initial Unit 1) race = some s ∧
      (∃ r, s.requests[0]? = some r ∧ operations 1 r.phase = [.acquire true]) ∧
      ∃ r, s.requests[1]? = some r ∧ operations 1 r.phase = [.acquire false] :=
    ⟨_, rfl, ⟨_, rfl, rfl⟩, _, rfl, rfl⟩
  have constant : ∀ value, .setLimit value ∈ race → value = 1 := by simp [race]
  obtain ⟨_, _, semaphore⟩ := gate_is_semaphore ran
  obtain ⟨bounded, _, each⟩ := semaphore (by decide) constant
  exact ⟨s, ran, by decide, constant, bounded, by rw [each 0 r atZero, admitted],
    by rw [each 1 r' atOne, rejected]⟩
end Limen.SimpleLimiter
