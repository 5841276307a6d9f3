import Limen.ClosedLoop.Chain
import Limen.WindowedLimit.Attained

/-! A limiter over `WindowedLimit` over `Gradient2Limit`. Windows pace the algorithm: how far the
cap moves is a matter of time and not of traffic. -/
namespace Limen.ClosedLoop
open AbstractLimiter Transition
variable {Ctx σ π W α β ρ : Type}

def chainGradient2 (l : Limiter Ctx σ π) (c : WindowedLimit.Config) (factory : W)
    (b : Gradient2Limit.Builder) : Chain Ctx σ π W (ℚ × ExpAvgMeasurement) :=
  ⟨l, c, factory, AbstractLimit.gradient2Limit b⟩

variable [AtomicWindow W α β ρ]

def hostChain (l : Limiter Ctx σ π) (c : WindowedLimit.Config) (factory : W)
    (b : Gradient2Limit.Builder) :
    Host Ctx σ π (Chain.State Ctx σ π W α β ρ (ℚ × ExpAvgMeasurement)) (Chain.Event Ctx) :=
  (chainGradient2 l c factory b).host b.initialLimit (b.initialLimit, b.build.longRtt)

section Chain
variable {l : Limiter Ctx σ π} {c : WindowedLimit.Config} {factory : W} {b : Gradient2Limit.Builder}
  {es : List (Chain.Event Ctx)} {s : Chain.State Ctx σ π W α β ρ (ℚ × ExpAvgMeasurement)}

/-- The cap is what the algorithm makes of what the boundaries have found. -/
theorem Chain.Windowed.cap {ws : List WindowedLimit.Event}
    (windowed : Chain.Windowed (chainGradient2 l c factory b) b.initialLimit
      (b.initialLimit, b.build.longRtt) ws s) :
    s.limiter.limit =
      (b.after (WindowedLimit.fed (WindowedLimit.State.operations c factory ws))).limit := by
  rw [windowed.limit, replay, chainGradient2, AbstractLimit.gradient2Limit_after]

theorem chain_within (bounded : b.Bounded)
    (ran : run (hostChain l c factory b).step (hostChain l c factory b).start es = some s) :
    b.minLimit ≤ s.limiter.limit ∧ s.limiter.limit ≤ b.maxConcurrency := by
  obtain ⟨ws, windowed, _⟩ := Chain.run_windowed ran
  rw [windowed.cap]
  exact (Gradient2Limit.after_inBounds bounded _).limit

theorem chain_visits_within (bounded : b.Bounded)
    {v : Chain.State Ctx σ π W α β ρ (ℚ × ExpAvgMeasurement)}
    (visits : Visits (hostChain l c factory b).step (hostChain l c factory b).start es v) :
    b.minLimit ≤ v.limiter.limit ∧ v.limiter.limit ≤ b.maxConcurrency := by
  obtain ⟨before, _, _, reached⟩ := visits
  exact chain_within bounded reached
end Chain

/-- With windows of any kind between a `SimpleLimiter` and `Gradient2Limit`, and in every
interleaving: the cap is within the bounds, what is in flight and what each sample reports
within the ceiling, and no call is turned away unless at some moment of the call at least the
floor was in flight. -/
theorem chain_confined {bypass : Ctx → Bool} {c : WindowedLimit.Config} {factory : W}
    {b : Gradient2Limit.Builder} (bounded : b.Bounded) {es : List (Chain.Event Ctx)}
    {s : Chain.State Ctx Unit SimpleLimiter.Pc W α β ρ (ℚ × ExpAvgMeasurement)}
    (ran : run (hostChain (SimpleLimiter.limiter bypass) c factory b).step
      (hostChain (SimpleLimiter.limiter bypass) c factory b).start es = some s) :
    (b.minLimit ≤ s.limiter.limit ∧ s.limiter.limit ≤ b.maxConcurrency) ∧
      (0 ≤ s.limiter.inflight ∧ s.limiter.inflight ≤ max 0 b.maxConcurrency) ∧
      (∀ sample ∈ s.limiter.samples, 1 ≤ sample.inflight ∧ sample.inflight ≤ b.maxConcurrency) ∧
      ∀ (i : Nat) r, s.limiter.requests[i]? = some r → r.phase = .rejecting ∨ r.phase = .rejected →
        (hostChain (SimpleLimiter.limiter bypass) c factory b :
          Host _ _ _ (Chain.State _ _ _ W α β ρ _) _).FloorReached b.minLimit es i r.context := by
  have below {fs : List (Chain.Event Ctx)} {u}
      (reached : run (hostChain (SimpleLimiter.limiter bypass) c factory b).step
        (hostChain (SimpleLimiter.limiter bypass) c factory b).start fs = some u) :
      u.limiter.inflight ≤ max 0 b.maxConcurrency :=
    inflight_le rfl reached fun v visits => (chain_visits_within bounded visits).2
  refine ⟨chain_within bounded ran, ⟨Host.inflight_nonneg ran, below ran⟩, ?_, ?_⟩
  · intro sample member
    obtain ⟨positive, within⟩ := Host.samples_within ran
      (fun v ⟨before, _, _, reached⟩ => below reached) sample member
    exact ⟨positive, by omega⟩
  · intro i r found rejected
    exact Host.floorReached_of_rejected (simpleJudgement Ctx) ran
      (fun v visits => (chain_visits_within bounded visits).1) found rejected

/-- Whatever the limiter and the windows, and however many calls complete on however many
threads: while the completions fall into `n` minimum windows, the cap falls by no more than `n`
cuts of half the smoothing factor and rises by no more than `n` smoothed queue sizes. -/
theorem chain_paced {l : Limiter Ctx σ π} {c : WindowedLimit.Config} {factory : W}
    {b : Gradient2Limit.Builder} {queue : Int} (floor : 0 ≤ b.minLimit) (bounded : b.Bounded)
    (tuned : b.Tuned) (nonneg : ∀ cap, 0 ≤ b.queueSizeFn cap)
    (queued : ∀ cap, cap ≤ b.maxConcurrency → b.queueSizeFn cap ≤ queue)
    {es : List (Chain.Event Ctx)} {s : Chain.State Ctx σ π W α β ρ (ℚ × ExpAvgMeasurement)}
    (ran : run (hostChain l c factory b).step (hostChain l c factory b).start es = some s)
    (exact : Along (hostChain l c factory b).step (Chain.Fits (chainGradient2 l c factory b))
      (hostChain l c factory b).start es) {first : Int} {n : Nat}
    (within : ∀ sample ∈ s.limiter.samples, first < sample.startTimeNs + sample.rttNs ∧
      sample.startTimeNs + sample.rttNs ≤ first + n * c.minWindowTimeNs) :
    b.initialLimit * (1 - b.smoothing / 2) ^ n < s.limiter.limit + 1 ∧
      (s.limiter.limit : ℚ) ≤ b.initialLimit + n * (b.smoothing * queue) := by
  obtain ⟨ws, windowed, fit⟩ := Chain.run_windowed ran
  rw [windowed.cap]
  generalize delivered : WindowedLimit.fed (WindowedLimit.State.operations c factory ws) = samples
  have few : samples.length ≤ n := by
    rw [← delivered]
    exact WindowedLimit.length_fed_le windowed.ran (fit exact) fun i call found =>
      within call.sample (windowed.entered i call found)
  obtain ⟨low, high⟩ := Gradient2Limit.after_moved floor bounded tuned nonneg queued samples
  have slow := tuned.smoothing_nonneg
  have fast := tuned.smoothing_le_one
  constructor
  · have bounds := Gradient2Limit.after_inBounds bounded samples
    have start : (0 : ℚ) ≤ b.initialLimit := by exact_mod_cast floor.trans bounded.floor
    have fewer : (1 - b.smoothing / 2) ^ n ≤ (1 - b.smoothing / 2) ^ samples.length :=
      pow_le_pow_of_le_one (by linarith) (by linarith) few
    have truncated := Int.lt_floor_add_one (b.after samples).estimatedLimit
    rw [bounds.published, Gradient2Limit.truncate, if_pos (bounds.estimate_nonneg floor)]
    exact ((mul_le_mul_of_nonneg_left fewer start).trans low).trans_lt truncated
  · have queuedNonneg : (0 : ℚ) ≤ queue := by
      exact_mod_cast (nonneg b.maxConcurrency).trans (queued _ (Int.le_refl _))
    refine (Gradient2Limit.after_limit_le floor bounded).trans (high.trans ?_)
    have fewer : (samples.length : ℚ) ≤ n := by exact_mod_cast few
    have step : 0 ≤ b.smoothing * queue := mul_nonneg slow queuedNonneg
    have scaled := mul_le_mul_of_nonneg_right fewer step
    linarith

/-- Windows whose extremes are those of samples do not overstate demand. -/
theorem Chain.demand_le [AtomicWindow W AddPoint TrackPoint ResetPoint]
    (law : AttainsExtremes W) {l : Limiter Ctx σ π} {c : WindowedLimit.Config}
    {factory : W} {b : Gradient2Limit.Builder} {peak : Int} {es : List (Chain.Event Ctx)}
    {s : Chain.State Ctx σ π W AddPoint TrackPoint ResetPoint (ℚ × ExpAvgMeasurement)}
    (ran : run (hostChain l c factory b).step (hostChain l c factory b).start es = some s)
    (peaked : ∀ v, Visits (hostChain l c factory b).step (hostChain l c factory b).start es v →
      v.limiter.inflight ≤ peak)
    (fresh : ∀ samples, (SampleWindow.extremes factory).Attained samples) :
    ∃ samples, s.limiter.limit = (b.after samples).limit ∧
      ∀ sample ∈ samples, sample.inflight ≤ peak := by
  obtain ⟨ws, windowed, _⟩ := Chain.run_windowed ran
  have asked (sample : Sample) (member : sample ∈ s.limiter.samples) : sample.inflight ≤ peak :=
    (Host.samples_within ran peaked sample member).2
  have idle : 0 ≤ peak := peaked _ ⟨[], es, rfl, rfl⟩
  have backed := (WindowedLimit.run_attained law (fresh (WindowedLimit.accepted c ws)) windowed.ran
    (WindowedLimit.admits_accepted c ws)).2
  refine ⟨_, windowed.cap, fun sample member => ?_⟩
  obtain ⟨op, there, delivered⟩ := List.mem_filterMap.mp member
  rcases (backed op there).inflight sample delivered with none | ⟨measured, accepted, same⟩
  · omega
  · obtain ⟨i, call, found, own⟩ :=
      WindowedLimit.run_entered windowed.ran (WindowedLimit.mem_accepted.mp accepted).1
    rw [← same, ← own]
    exact asked call.sample (windowed.entered i call found)

/-- The same of the whole chain, with windows of either kind: while no more than `peak` have ever
been in flight, the cap has not been raised beyond twice that and one smoothed queue size, however
the windows are torn. -/
theorem chain_follows_demand {l : Limiter Ctx σ π} {c : WindowedLimit.Config}
    {b : Gradient2Limit.Builder} {peak queue : Int} (floor : 0 ≤ b.minLimit) (bounded : b.Bounded)
    (tuned : b.Tuned) (queued : ∀ cap, cap ≤ 2 * peak → b.queueSizeFn cap ≤ queue)
    (es : List (Chain.Event Ctx)) :
    (∀ s, run (hostChain l c ({} : AverageSampleWindow) b).step
        (hostChain l c ({} : AverageSampleWindow) b).start es = some s →
      (∀ v, Visits (hostChain l c ({} : AverageSampleWindow) b).step
        (hostChain l c ({} : AverageSampleWindow) b).start es v → v.limiter.inflight ≤ peak) →
      (s.limiter.limit : ℚ) ≤ max (b.initialLimit : ℚ) (2 * peak + b.smoothing * queue)) ∧
    ∀ (percentile : ℚ) (maxSamples : Nat) s,
      run (hostChain l c (PercentileSampleWindow.construct percentile maxSamples) b).step
        (hostChain l c (PercentileSampleWindow.construct percentile maxSamples) b).start es =
          some s →
      (∀ v, Visits (hostChain l c (PercentileSampleWindow.construct percentile maxSamples) b).step
        (hostChain l c (PercentileSampleWindow.construct percentile maxSamples) b).start es v →
        v.limiter.inflight ≤ peak) →
      (s.limiter.limit : ℚ) ≤ max (b.initialLimit : ℚ) (2 * peak + b.smoothing * queue) := by
  have reached {samples : List Sample} (asked : ∀ sample ∈ samples, sample.inflight ≤ peak) :
      ((b.after samples).limit : ℚ) ≤ max (b.initialLimit : ℚ) (2 * peak + b.smoothing * queue) :=
    (Gradient2Limit.after_limit_le floor bounded).trans
      (Gradient2Limit.after_reach floor tuned bounded queued asked)
  constructor
  · intro s ran peaked
    obtain ⟨samples, cap, asked⟩ :=
      Chain.demand_le AverageSampleWindow.attainsExtremes ran peaked Extremes.attained_fresh
    rw [cap]
    exact reached asked
  · intro percentile maxSamples s ran peaked
    obtain ⟨samples, cap, asked⟩ :=
      Chain.demand_le PercentileSampleWindow.attainsExtremes ran peaked Extremes.attained_fresh
    rw [cap]
    exact reached asked

/-- Nothing is bypassed, and one sample is enough for the delegate. -/
def tightChain : Host Unit Unit SimpleLimiter.Pc
    (Chain.State Unit Unit SimpleLimiter.Pc AverageSampleWindow AddPoint TrackPoint ResetPoint
      (ℚ × ExpAvgMeasurement)) (Chain.Event Unit) :=
  hostChain (SimpleLimiter.limiter fun _ => false) WindowedLimit.quickWindows {} tight

/-- The second call is turned away, and the sample of the first one takes a boundary. -/
def fedThrough : List (Chain.Event Unit) :=
  fedBack.map .limiter ++ List.replicate 20 (.window 0)

theorem fedThrough_reached : (run tightChain.step tightChain.start fedThrough).map
    (fun s => (s.limiter.limit, s.limiter.samples, s.limiter.requests[1]?)) =
      some (2, [⟨0, 1000, 1, false⟩], some ⟨(), .rejecting⟩) := by decide +kernel

theorem fedThrough_confined : ∃ s : Chain.State Unit Unit SimpleLimiter.Pc AverageSampleWindow
      AddPoint TrackPoint ResetPoint (ℚ × ExpAvgMeasurement),
    run tightChain.step tightChain.start fedThrough = some s ∧ s.limiter.inflight ≤ max 0 2 ∧
      tightChain.FloorReached 1 fedThrough 1 () := by
  obtain ⟨s, ran, seen⟩ := Option.map_eq_some_iff.mp fedThrough_reached
  obtain ⟨_, _, found⟩ := Prod.mk.inj seen |>.imp_right Prod.mk.inj
  obtain ⟨_, ⟨_, inside⟩, _, turnedAway⟩ := chain_confined tight_bounded ran
  exact ⟨s, ran, inside, turnedAway 1 _ found (.inl rfl)⟩

theorem fedThrough_follows_demand : ∃ s : Chain.State Unit Unit SimpleLimiter.Pc AverageSampleWindow
      AddPoint TrackPoint ResetPoint (ℚ × ExpAvgMeasurement),
    run tightChain.step tightChain.start fedThrough = some s ∧ s.limiter.limit = 2 ∧
      (s.limiter.limit : ℚ) ≤
        max (tight.initialLimit : ℚ) (2 * (2 : Int) + tight.smoothing * (2 : Int)) := by
  obtain ⟨s, ran, seen⟩ := Option.map_eq_some_iff.mp fedThrough_reached
  have queued (cap : Int) (small : cap ≤ 2 * 2) : tight.queueSizeFn cap ≤ 2 :=
    (Gradient2Limit.defaultSqrtQueueSize_mono small).trans (by decide +kernel)
  refine ⟨s, ran, (Prod.mk.inj seen).1, (chain_follows_demand (by decide) tight_bounded tight_tuned
    queued fedThrough).1 s ran ?_⟩
  rintro v ⟨before, after, split, reached⟩
  exact inflight_le (h := tightChain) rfl reached
    fun u visits => (chain_visits_within tight_bounded visits).2

/-- The one completion falls into a minimum window. -/
theorem fedThrough_paced : ∃ s : Chain.State Unit Unit SimpleLimiter.Pc AverageSampleWindow
      AddPoint TrackPoint ResetPoint (ℚ × ExpAvgMeasurement),
    run tightChain.step tightChain.start fedThrough = some s ∧
      (s.limiter.limit : ℚ) ≤ tight.initialLimit + (1 : Nat) * (tight.smoothing * (2 : Int)) := by
  obtain ⟨s, ran, seen⟩ := Option.map_eq_some_iff.mp fedThrough_reached
  obtain ⟨_, samples, _⟩ := Prod.mk.inj seen |>.imp_right Prod.mk.inj
  have nonneg (cap : Int) : 0 ≤ tight.queueSizeFn cap :=
    Int.le_trans (by decide) (Gradient2Limit.defaultSqrtQueueSize_pos cap)
  have queued (cap : Int) (small : cap ≤ tight.maxConcurrency) : tight.queueSizeFn cap ≤ 2 :=
    (Gradient2Limit.defaultSqrtQueueSize_mono small).trans (by decide +kernel)
  have within : ∀ sample ∈ s.limiter.samples, 995 < sample.startTimeNs + sample.rttNs ∧
      sample.startTimeNs + sample.rttNs ≤
        995 + (1 : Nat) * WindowedLimit.quickWindows.minWindowTimeNs := by
    rw [samples]
    decide
  exact ⟨s, ran, (chain_paced (by decide) tight_bounded tight_tuned nonneg queued ran
    (by decide +kernel) within).2⟩
end Limen.ClosedLoop
