import Limen.AbstractLimit.Callbacks
import Limen.AbstractLimiter.Rejections
import Limen.ClosedLoop
import Limen.Gradient2Limit.Demand
import Limen.SimpleLimiter.Linearizable

/-! A limiter over `Gradient2Limit`. The bounds of the algorithm become bounds of the whole: what
is in flight stays below the ceiling, what is sampled was measured below it, and no call is
turned away while fewer than the floor are in flight. -/
namespace Limen.AbstractLimiter
open Transition
variable {Ctx σ π : Type}

/-- The value of the in-flight counter that a call was admitted with. -/
def Phase.posted? : Phase π → Option Int
  | .admitted result => some result.inflightPost
  | .held slot => some slot.inflightAtAcquire
  | .decrementing call | .releasingPartition call | .counting call | .sampling call =>
    some call.slot.inflightAtAcquire
  | _ => none

theorem moves_posted {gate : Gate Ctx σ π} {i : Nat} {c c' : Counters σ} {e : Event Ctx}
    {phase phase' : Phase π} (moved : Moves gate i c e phase c' phase') :
    (∀ v, phase'.posted? = some v → phase.posted? = some v ∨
      (v = c'.inflight ∧ v = c.inflight + 1)) ∧
    ∀ sample ∈ c'.samples, sample ∈ c.samples ∨ phase.posted? = some sample.inflight := by
  cases moved with
  | complete op call own limited => exact ⟨fun v => .inl, fun sample => .inl⟩
  | @advance _ _ _ input made advanced =>
    cases phase <;> simp only [Phase.advance, Option.some.injEq, Prod.mk.injEq, reduceCtorEq]
      at advanced <;> obtain ⟨rfl, rfl, rfl⟩ := advanced
    case acquiring pc =>
      refine ⟨fun v posted => ?_, fun sample => .inl⟩
      generalize acquired : gate.acquire c.limit c.toGauge pc input.spurious = done at posted
      obtain ⟨gauge', _ | _ | result⟩ := done
      · contradiction
      · contradiction
      · obtain ⟨raised, post⟩ := gate.reserves _ _ _ _ _ _ acquired
        obtain rfl : result.inflightPost = v := Option.some.inj posted
        exact .inr ⟨post.trans raised.symm, post⟩
    case counting call =>
      refine ⟨fun v posted => .inl ?_, fun sample => .inl⟩
      split at posted
      · exact posted
      · contradiction
    case sampling call =>
      refine ⟨by simp [Phase.posted?], fun sample member => ?_⟩
      rcases List.mem_append.mp member with earlier | last
      · exact .inl earlier
      · rw [List.mem_singleton.mp last]
        exact .inr rfl
    case admitted result => exact ⟨fun v => .inl, fun sample => .inl⟩
    case decrementing call => exact ⟨fun v => .inl, fun sample => .inl⟩
    case releasingPartition call => exact ⟨fun v => .inl, fun sample => .inl⟩
    all_goals exact ⟨by simp [Phase.posted?], fun sample => .inl⟩

/-- Where the counter has never been above `bound`, no call was admitted with more, and no
sample says so. -/
theorem State.samples_within {l : Limiter Ctx σ π} {limit bound : Int} {es : List (Event Ctx)}
    {s : State Ctx σ π} (ran : run (step l) (start l.gate limit) es = some s)
    (bounded : ∀ u, Visits (step l) (start l.gate limit) es u → u.inflight ≤ bound) :
    ∀ sample ∈ s.samples, 1 ≤ sample.inflight ∧ sample.inflight ≤ bound := by
  revert bounded
  suffices both : (∀ u, Visits (step l) (start l.gate limit) es u → u.inflight ≤ bound) →
      (∀ (i : Nat) r v, s.requests[i]? = some r → r.phase.posted? = some v → 1 ≤ v ∧ v ≤ bound) ∧
      ∀ sample ∈ s.samples, 1 ≤ sample.inflight ∧ sample.inflight ≤ bound from
    fun bounded => (both bounded).2
  refine history (P := fun es s =>
    (∀ u, Visits (step l) (start l.gate limit) es u → u.inflight ≤ bound) →
      (∀ (i : Nat) r v, s.requests[i]? = some r → r.phase.posted? = some v → 1 ≤ v ∧ v ≤ bound) ∧
      ∀ sample ∈ s.samples, 1 ≤ sample.inflight ∧ sample.inflight ≤ bound)
    (fun _ => ⟨by simp [start], by simp [start]⟩) ?_ ran
  intro es s e t ran ih stepped bounded
  obtain ⟨posted, sampled⟩ := ih fun u visits => bounded u (visits.append [e])
  have last : t.inflight ≤ bound :=
    bounded t (visits_last (run_append_eq_some.mpr ⟨s, ran, by rwa [run_single]⟩))
  have nonneg : 0 ≤ s.inflight := by
    rw [inflight_eq ran]
    exact Int.natCast_nonneg _
  rcases step_cases (run_valid ran) stepped with
    ⟨context, _, same, requests⟩ | ⟨i, r, phase, here, moved, requests⟩ | ⟨_, _, requests, changed⟩
  · constructor
    · intro j r v found atPost
      rw [requests] at found
      rcases Pool.getElem?_concat_eq_some.mp found with earlier | ⟨_, rfl⟩
      · exact posted j r v earlier atPost
      · rcases l.enter_phase context with entered | entered <;> rw [entered] at atPost <;>
          contradiction
    · rw [same]
      exact sampled
  · obtain ⟨posts, samples⟩ := moves_posted moved
    constructor
    · intro j r' v found atPost
      rw [requests] at found
      rcases Pool.getElem?_modify_cases here found with ⟨rfl, rfl⟩ | ⟨_, earlier⟩
      · rcases posts v atPost with before | ⟨now, raised⟩
        · exact posted j r v here before
        · omega
      · exact posted j r' v earlier atPost
    · intro sample member
      rcases samples sample member with earlier | own
      · exact sampled sample earlier
      · exact posted i r _ here own
  · rw [requests, changed.1]
    exact ⟨posted, sampled⟩
end Limen.AbstractLimiter

namespace Limen.ClosedLoop
open AbstractLimiter Transition
variable {Ctx σ π S E : Type}

namespace Host
variable {h : Host Ctx σ π S E} {es : List E} {s : S}

/-- At some moment of call `i` inside `DoAcquire` at least `floor` were in flight. -/
def FloorReached (h : Host Ctx σ π S E) (floor : Int) (es : List E) (i : Nat) (context : Ctx) :
    Prop :=
  ∃ v pc, Visits h.step h.start es v ∧ (h.view v).requests[i]? = some ⟨context, .acquiring pc⟩ ∧
    floor ≤ (h.view v).inflight

/-- A call is not turned away unless, during the call, at least as much was in flight as the cap
has always been. -/
theorem floorReached_of_rejected {floor : Int}
    (judgement : Judgement h.limiter.gate (fun gauge _ => gauge.inflight) fun limit _ _ => limit)
    (ran : run h.step h.start es = some s)
    (above : ∀ v, Visits h.step h.start es v → floor ≤ (h.view v).limit) {i : Nat}
    {r : Request Ctx π} (found : (h.view s).requests[i]? = some r)
    (rejected : r.phase = .rejecting ∨ r.phase = .rejected) :
    h.FloorReached floor es i r.context := by
  obtain ⟨ds, refines⟩ := run_refines (fun cap => floor ≤ cap) ran above
  obtain ⟨before, middle, after, u, w, pc, pc', rfl, first, rest, loading, _, full⟩ :=
    AbstractLimiter.State.sawFull_of_rejected judgement refines.ran found rejected
  obtain ⟨_, v, reached, gauge, requests⟩ := refines.visited u
    ⟨before, middle ++ after, List.append_assoc .., first⟩
  obtain ⟨high, _⟩ := refines.visited w
    ⟨before ++ middle, after, rfl, run_append_eq_some.mpr ⟨u, first, rest⟩⟩
  refine ⟨v, pc, reached, by rw [requests, loading], high.trans ?_⟩
  rw [gauge]
  exact full

theorem inflight_nonneg (ran : run h.step h.start es = some s) : 0 ≤ (h.view s).inflight := by
  obtain ⟨ds, refines⟩ := run_refines (fun _ => True) ran fun _ _ => trivial
  rw [AbstractLimiter.State.inflight_eq refines.ran]
  exact Int.natCast_nonneg _

/-- Where the counter has not been above `bound`, no sample reports more. -/
theorem samples_within {bound : Int} (ran : run h.step h.start es = some s)
    (bounded : ∀ v, Visits h.step h.start es v → (h.view v).inflight ≤ bound) :
    ∀ sample ∈ (h.view s).samples, 1 ≤ sample.inflight ∧ sample.inflight ≤ bound := by
  obtain ⟨ds, refines⟩ := run_refines (fun _ => True) ran fun _ _ => trivial
  refine AbstractLimiter.State.samples_within refines.ran fun u visits => ?_
  obtain ⟨_, v, reached, gauge, _⟩ := refines.visited u visits
  rw [← gauge]
  exact bounded v reached
end Host

section Simple
variable {h : Host Ctx Unit SimpleLimiter.Pc S E} {bypass : Ctx → Bool} {es : List E} {s : S}
  {ceiling : Int}

/-- Under a `SimpleLimiter` what is in flight stays within a ceiling of the caps. -/
theorem inflight_le (simple : h.limiter = SimpleLimiter.limiter bypass)
    (ran : run h.step h.start es = some s)
    (below : ∀ v, Visits h.step h.start es v → (h.view v).limit ≤ ceiling) :
    (h.view s).inflight ≤ max 0 ceiling := by
  obtain ⟨ds, refines⟩ := Host.run_refines (fun cap => cap ≤ ceiling) ran below
  have lower := refines.ran
  have visited := refines.visited
  rw [simple] at lower visited
  obtain ⟨w, there, within⟩ := SimpleLimiter.inflight_bounded lower
  exact within.trans (max_le_max_left 0 (visited w there).1)
end Simple

/-- A limiter over a `Gradient2Limit` as `Build` leaves it. -/
def overGradient2 (l : Limiter Ctx σ π) (b : Gradient2Limit.Builder) :
    System Ctx σ π (ℚ × ExpAvgMeasurement) :=
  ⟨l, AbstractLimit.gradient2Limit b⟩

def hostGradient2 (l : Limiter Ctx σ π) (b : Gradient2Limit.Builder) :
    Host Ctx σ π (State Ctx σ π (ℚ × ExpAvgMeasurement)) (Event Ctx) :=
  (overGradient2 l b).host b.initialLimit (b.initialLimit, b.build.longRtt)

section Gradient2
variable {l : Limiter Ctx σ π} {b : Gradient2Limit.Builder} {es : List (Event Ctx)}
  {s : State Ctx σ π (ℚ × ExpAvgMeasurement)}

theorem run_cap (ran : run (hostGradient2 l b).step (hostGradient2 l b).start es = some s) :
    s.limit = (b.after s.samples).limit := by
  have replayed := (State.run_replays ran).1
  have same := AbstractLimit.gradient2Limit_after b s.samples
  rw [replayed, replay, overGradient2, same]

theorem run_within (bounded : b.Bounded)
    (ran : run (hostGradient2 l b).step (hostGradient2 l b).start es = some s) :
    b.minLimit ≤ s.limit ∧ s.limit ≤ b.maxConcurrency := by
  rw [run_cap ran]
  exact (Gradient2Limit.after_inBounds bounded s.samples).limit

theorem visits_within (bounded : b.Bounded) {v : State Ctx σ π (ℚ × ExpAvgMeasurement)}
    (visits : Visits (hostGradient2 l b).step (hostGradient2 l b).start es v) :
    b.minLimit ≤ v.limit ∧ v.limit ≤ b.maxConcurrency := by
  obtain ⟨before, _, _, reached⟩ := visits
  exact run_within bounded reached
end Gradient2

/-- A `SimpleLimiter` over `Gradient2Limit`, in every interleaving: the cap is what the algorithm
makes of the samples fed so far and stays within the bounds; what is in flight stays within the
ceiling, and so does what each sample reports. -/
theorem closed_loop_confined {bypass : Ctx → Bool} {b : Gradient2Limit.Builder}
    (bounded : b.Bounded) {es : List (Event Ctx)}
    {s : State Ctx Unit SimpleLimiter.Pc (ℚ × ExpAvgMeasurement)}
    (ran : run (hostGradient2 (SimpleLimiter.limiter bypass) b).step
      (hostGradient2 (SimpleLimiter.limiter bypass) b).start es = some s) :
    s.limit = (b.after s.samples).limit ∧ b.minLimit ≤ s.limit ∧ s.limit ≤ b.maxConcurrency ∧
      0 ≤ s.inflight ∧ s.inflight ≤ max 0 b.maxConcurrency ∧
      ∀ sample ∈ s.samples, 1 ≤ sample.inflight ∧ sample.inflight ≤ b.maxConcurrency := by
  have below {fs : List (Event Ctx)} {u}
      (reached : run (hostGradient2 (SimpleLimiter.limiter bypass) b).step
        (hostGradient2 (SimpleLimiter.limiter bypass) b).start fs = some u) :
      u.inflight ≤ max 0 b.maxConcurrency :=
    inflight_le rfl reached fun v visits => (visits_within bounded visits).2
  obtain ⟨floor, ceiling⟩ := run_within bounded ran
  refine ⟨run_cap ran, floor, ceiling, Host.inflight_nonneg ran, below ran, fun sample member => ?_⟩
  obtain ⟨positive, within⟩ := Host.samples_within ran
    (fun v ⟨before, _, _, reached⟩ => below reached) sample member
  exact ⟨positive, by omega⟩

/-- Over `Gradient2Limit`, neither limiter turns a call away unless at some moment of the call at
least the floor was in flight. -/
theorem turned_away_above_floor {bypass : Ctx → Bool} {b : Gradient2Limit.Builder}
    (bounded : b.Bounded) (es : List (Event Ctx)) (i : Nat) :
    (∀ s r, run (hostGradient2 (SimpleLimiter.limiter bypass) b).step
        (hostGradient2 (SimpleLimiter.limiter bypass) b).start es = some s →
      s.requests[i]? = some r → r.phase = .rejecting ∨ r.phase = .rejected →
      (hostGradient2 (SimpleLimiter.limiter bypass) b).FloorReached b.minLimit es i r.context) ∧
    ∀ config s r,
      run (hostGradient2 (AbstractPartitionedLimiter.limiter config bypass) b).step
        (hostGradient2 (AbstractPartitionedLimiter.limiter config bypass) b).start es = some s →
      s.requests[i]? = some r → r.phase = .rejecting ∨ r.phase = .rejected →
      (hostGradient2 (AbstractPartitionedLimiter.limiter config bypass) b).FloorReached b.minLimit
        es i r.context := by
  constructor
  · intro s r ran found rejected
    exact Host.floorReached_of_rejected (simpleJudgement Ctx) ran
      (fun v visits => (visits_within bounded visits).1) found rejected
  · intro config s r ran found rejected
    exact Host.floorReached_of_rejected (globalJudgement config) ran
      (fun v visits => (visits_within bounded visits).1) found rejected

/-- Whatever the gate: while no more than `peak` have ever been in flight, the cap has not been
raised beyond twice that and one smoothed queue size. -/
theorem cap_follows_demand {l : Limiter Ctx σ π} {b : Gradient2Limit.Builder} {peak queue : Int}
    (floor : 0 ≤ b.minLimit) (bounded : b.Bounded) (tuned : b.Tuned)
    (queued : ∀ cap, cap ≤ 2 * peak → b.queueSizeFn cap ≤ queue) {es : List (Event Ctx)}
    {s : State Ctx σ π (ℚ × ExpAvgMeasurement)}
    (ran : run (hostGradient2 l b).step (hostGradient2 l b).start es = some s)
    (peaked : ∀ v, Visits (hostGradient2 l b).step (hostGradient2 l b).start es v →
      v.inflight ≤ peak) :
    (s.limit : ℚ) ≤ max (b.initialLimit : ℚ) (2 * peak + b.smoothing * queue) := by
  have asked (sample : Sample) (member : sample ∈ s.samples) : sample.inflight ≤ peak :=
    (Host.samples_within ran peaked sample member).2
  rw [run_cap ran]
  exact (Gradient2Limit.after_limit_le floor bounded).trans
    (Gradient2Limit.after_reach floor tuned bounded queued asked)

/-- A floor of one and a ceiling of two. -/
def tight : Gradient2Limit.Builder :=
  { initialLimit := 1, minLimit := 1, maxConcurrency := 2, smoothing := 1 }

/-- Nothing is bypassed. -/
def tightLoop : Host Unit Unit SimpleLimiter.Pc
    (State Unit Unit SimpleLimiter.Pc (ℚ × ExpAvgMeasurement)) (Event Unit) :=
  hostGradient2 (SimpleLimiter.limiter fun _ => false) tight

theorem tight_bounded : tight.Bounded := ⟨by decide, by decide⟩

/-- The second call is turned away; the first one is completed and its sample raises the cap. -/
def fedBack : List (Event Unit) :=
  [.tryAcquire (), .advance 0 {}, .advance 0 {}, .advance 0 {}, .advance 0 { addr := 7 },
    .tryAcquire (), .advance 1 {}, .advance 1 {}, .guard (.complete 7 .success), .advance 0 {},
    .advance 0 {}, .advance 0 {}, .advance 0 { now := 1000 }]

theorem fedBack_reached : (run tightLoop.step tightLoop.start fedBack).map
      (fun s => (s.limit, s.samples.length, s.requests[1]?)) =
    some (2, 1, some ⟨(), .rejecting⟩) := by decide +kernel

theorem fedBack_confined : ∃ s : State Unit Unit SimpleLimiter.Pc (ℚ × ExpAvgMeasurement),
    s.limit = 2 ∧ s.samples.length = 1 ∧ s.inflight ≤ max 0 2 ∧
      ∀ sample ∈ s.samples, 1 ≤ sample.inflight ∧ sample.inflight ≤ 2 := by
  obtain ⟨s, ran, seen⟩ := Option.map_eq_some_iff.mp fedBack_reached
  obtain ⟨limit, samples, _⟩ := Prod.mk.inj seen |>.imp_right Prod.mk.inj
  obtain ⟨_, _, _, _, inside, sampled⟩ := closed_loop_confined tight_bounded ran
  exact ⟨s, limit, samples, inside, sampled⟩

theorem tight_tuned : tight.Tuned :=
  ⟨by norm_num [tight], by norm_num [tight], by norm_num [tight], by decide⟩

theorem fedBack_follows_demand : ∃ s : State Unit Unit SimpleLimiter.Pc (ℚ × ExpAvgMeasurement),
    s.limit = 2 ∧ (s.limit : ℚ) ≤
      max (tight.initialLimit : ℚ) (2 * (2 : Int) + tight.smoothing * (2 : Int)) := by
  obtain ⟨s, ran, seen⟩ := Option.map_eq_some_iff.mp fedBack_reached
  have limit : s.limit = 2 := (Prod.mk.inj seen).1
  have queued (cap : Int) (small : cap ≤ 2 * 2) : tight.queueSizeFn cap ≤ 2 :=
    (Gradient2Limit.defaultSqrtQueueSize_mono small).trans (by decide +kernel)
  refine ⟨s, limit, cap_follows_demand (by decide) tight_bounded tight_tuned queued ran ?_⟩
  rintro v ⟨before, after, split, reached⟩
  exact inflight_le (h := tightLoop) rfl reached fun u visits =>
    (visits_within tight_bounded visits).2

open AbstractPartitionedLimiter in
def tightPartitions : Host String Table Pc
    (State String Table Pc (ℚ × ExpAvgMeasurement)) (Event String) :=
  hostGradient2 (limiter twoHalves fun _ => false) tight

/-- The second call finds the quota of its partition in use as well as the cap. -/
def crowdedOut : List (Event String) :=
  [.tryAcquire "gold", .advance 0 {}, .advance 0 {}, .advance 0 {}, .advance 0 {},
    .tryAcquire "gold", .advance 1 {}, .advance 1 {}, .advance 1 {}, .advance 1 {}]

theorem fedBack_above_floor :
    tightLoop.FloorReached tight.minLimit fedBack 1 () ∧
      tightPartitions.FloorReached tight.minLimit crowdedOut 1 "gold" := by
  constructor
  · obtain ⟨s, ran, seen⟩ := Option.map_eq_some_iff.mp fedBack_reached
    obtain ⟨_, _, found⟩ := Prod.mk.inj seen |>.imp_right Prod.mk.inj
    exact (turned_away_above_floor tight_bounded fedBack 1).1 s _ ran found (.inl rfl)
  · have reached : (run tightPartitions.step tightPartitions.start crowdedOut).map
        (fun s => s.requests[1]?) = some (some ⟨"gold", .rejecting⟩) := by decide +kernel
    obtain ⟨s, ran, found⟩ := Option.map_eq_some_iff.mp reached
    exact (turned_away_above_floor tight_bounded crowdedOut 1).2 _ s _ ran found (.inl rfl)
end Limen.ClosedLoop
