import Limen.AbstractPartitionedLimiter.Conservation
import Limen.SimpleLimiter

/-! A call is rejected only if it has found no room: at one moment during the call a counter was
no less than a bound on it that the same call read no earlier. -/
namespace Limen.AbstractLimiter
open Transition
variable {Ctx σ π : Type}

/-- What a call in `DoAcquire` knows of the counter that `level` reads: a load that it has still
to compare with `bound`, or that it has compared and found too high. -/
structure Judgement (gate : Gate Ctx σ π) (level : Gauge σ → π → Int)
    (bound : Int → Gauge σ → π → Int) where
  loaded : π → Option Int
  full : π → Bool
  entry_loaded : ∀ context, loaded (gate.entry context) = none
  entry_full : ∀ context, full (gate.entry context) = false
  loads : ∀ {limit gauge pc spurious gauge' pc' v},
    gate.acquire limit gauge pc spurious = (gauge', .running pc') → loaded pc' = some v →
    v = level gauge pc ∨ loaded pc = some v
  compares : ∀ {limit gauge pc spurious gauge' pc'},
    gate.acquire limit gauge pc spurious = (gauge', .running pc') → full pc' = true →
    full pc = true ∨ ∃ v, loaded pc = some v ∧ bound limit gauge pc ≤ v
  rejects : ∀ {limit gauge pc spurious gauge'},
    gate.acquire limit gauge pc spurious = (gauge', .finished none) →
    full pc = true ∨ ∃ v, loaded pc = some v ∧ bound limit gauge pc ≤ v

variable {level : Gauge σ → π → Int} {bound : Int → Gauge σ → π → Int}

namespace Judgement
variable {gate : Gate Ctx σ π} (judgement : Judgement gate level bound)

def loadedPhase : Phase π → Option Int
  | .acquiring pc => judgement.loaded pc
  | _ => none

def fullPhase : Phase π → Bool
  | .acquiring pc => judgement.full pc
  | .rejecting | .rejected => true
  | _ => false

theorem enter_phase (l : Limiter Ctx σ π) (judgement : Judgement l.gate level bound)
    (context : Ctx) : judgement.loadedPhase (l.enter context).phase = none ∧
      judgement.fullPhase (l.enter context).phase = false := by
  rcases l.enter_phase context with bypassing | acquiring
  · rw [bypassing]
    exact ⟨rfl, rfl⟩
  · rw [acquiring]
    exact ⟨judgement.entry_loaded context, judgement.entry_full context⟩

/-- A call that moves learns something only from an operation of `DoAcquire`. -/
theorem moves_learns {i : Nat} {c c' : Counters σ} {e : Event Ctx} {phase phase' : Phase π}
    (moved : Moves gate i c e phase c' phase') :
    (∀ v, judgement.loadedPhase phase' = some v →
      (∃ pc, phase = .acquiring pc ∧ v = level c.toGauge pc) ∨
        judgement.loadedPhase phase = some v) ∧
    (judgement.fullPhase phase' = true → judgement.fullPhase phase = true ∨
      ∃ v pc, phase = .acquiring pc ∧ judgement.loadedPhase phase = some v ∧
        bound c.limit c.toGauge pc ≤ v) := by
  cases moved with
  | complete op call own limited => simp [loadedPhase, fullPhase]
  | @advance _ _ _ input made advanced =>
    cases phase <;> simp only [Phase.advance, Option.some.injEq, Prod.mk.injEq, reduceCtorEq]
      at advanced <;> obtain ⟨rfl, rfl, rfl⟩ := advanced
    case acquiring pc =>
      generalize acquired : gate.acquire c.limit c.toGauge pc input.spurious = done
      obtain ⟨gauge', pc' | _ | result⟩ := done
      · refine ⟨fun v there => ?_, fun found => ?_⟩
        · rcases judgement.loads acquired there with rfl | earlier
          · exact .inl ⟨pc, rfl, rfl⟩
          · exact .inr earlier
        · rcases judgement.compares acquired found with earlier | ⟨v, there, below⟩
          · exact .inl earlier
          · exact .inr ⟨v, pc, rfl, there, below⟩
      · refine ⟨by simp [Progress.phase, loadedPhase], fun _ => ?_⟩
        rcases judgement.rejects acquired with earlier | ⟨v, there, below⟩
        · exact .inl earlier
        · exact .inr ⟨v, pc, rfl, there, below⟩
      · simp [Progress.phase, loadedPhase, fullPhase]
    case counting call => split <;> simp [loadedPhase, fullPhase]
    all_goals simp [loadedPhase, fullPhase]
end Judgement

namespace State
variable {l : Limiter Ctx σ π} {limit : Int} {es : List (Event Ctx)} {s t : State Ctx σ π} {i : Nat}
  {context : Ctx}

/-- Inside `DoAcquire`, call `i` has seen its counter at `v`. -/
def Saw (l : Limiter Ctx σ π) (level : Gauge σ → π → Int) (limit : Int) (es : List (Event Ctx))
    (i : Nat) (context : Ctx) (v : Int) : Prop :=
  ∃ before after u pc, es = before ++ after ∧ run (step l) (start l.gate limit) before = some u ∧
    u.requests[i]? = some ⟨context, .acquiring pc⟩ ∧ level u.toGauge pc = v

/-- Inside `DoAcquire`, call `i` has seen its counter and, no earlier, a bound on it that is no
more than that. -/
def SawFull (l : Limiter Ctx σ π) (level : Gauge σ → π → Int) (bound : Int → Gauge σ → π → Int)
    (limit : Int) (es : List (Event Ctx)) (i : Nat) (context : Ctx) : Prop :=
  ∃ before middle after u w pc pc', es = before ++ middle ++ after ∧
    run (step l) (start l.gate limit) before = some u ∧ run (step l) u middle = some w ∧
    u.requests[i]? = some ⟨context, .acquiring pc⟩ ∧
    w.requests[i]? = some ⟨context, .acquiring pc'⟩ ∧
    bound w.limit w.toGauge pc' ≤ level u.toGauge pc

theorem Saw.append {v : Int} (saw : Saw l level limit es i context v) (more : List (Event Ctx)) :
    Saw l level limit (es ++ more) i context v := by
  obtain ⟨before, after, u, pc, rfl, rest⟩ := saw
  exact ⟨before, after ++ more, u, pc, List.append_assoc .., rest⟩

theorem SawFull.append (saw : SawFull l level bound limit es i context) (more : List (Event Ctx)) :
    SawFull l level bound limit (es ++ more) i context := by
  obtain ⟨before, middle, after, u, w, pc, pc', rfl, rest⟩ := saw
  exact ⟨before, middle, after ++ more, u, w, pc, pc', List.append_assoc .., rest⟩

/-- What each call knows, it has seen. -/
def Knows (judgement : Judgement l.gate level bound) (limit : Int) (es : List (Event Ctx)) (i : Nat)
    (r : Request Ctx π) : Prop :=
  (∀ v, judgement.loadedPhase r.phase = some v → Saw l level limit es i r.context v) ∧
    (judgement.fullPhase r.phase = true → SawFull l level bound limit es i r.context)

theorem Knows.append {judgement : Judgement l.gate level bound} {r : Request Ctx π}
    (knows : Knows judgement limit es i r) (more : List (Event Ctx)) :
    Knows judgement limit (es ++ more) i r :=
  ⟨fun v there => (knows.1 v there).append more, fun full => (knows.2 full).append more⟩

theorem Knows.moves {judgement : Judgement l.gate level bound} {r : Request Ctx π} {e : Event Ctx}
    {c' : Counters σ} {phase : Phase π} (knows : Knows judgement limit es i r)
    (ran : run (step l) (start l.gate limit) es = some s) (found : s.requests[i]? = some r)
    (moved : Moves l.gate i s.toCounters e r.phase c' phase) :
    Knows judgement limit (es ++ [e]) i (r.moveTo phase) := by
  obtain ⟨loads, compares⟩ := judgement.moves_learns moved
  obtain ⟨saw, sawFull⟩ := knows
  have here {pc : π} (acquiring : r.phase = .acquiring pc) :
      s.requests[i]? = some ⟨r.context, .acquiring pc⟩ := by rw [found, ← acquiring]
  constructor
  · intro v there
    rcases loads v there with ⟨pc, acquiring, rfl⟩ | earlier
    · exact ⟨es, [e], s, pc, rfl, ran, here acquiring, rfl⟩
    · exact (saw v earlier).append [e]
  · intro full
    rcases compares full with earlier | ⟨v, pc, acquiring, there, below⟩
    · exact (sawFull earlier).append [e]
    · obtain ⟨before, after, u, pc', rfl, reached, loading, rfl⟩ := saw v there
      obtain ⟨middle, first, rest⟩ := run_append_eq_some.mp ran
      obtain rfl : u = middle := Option.some.inj (reached.symm.trans first)
      exact ⟨before, after, [e], u, s, pc', pc, rfl, reached, rest, loading, here acquiring, below⟩

theorem run_knows (judgement : Judgement l.gate level bound)
    (ran : run (step l) (start l.gate limit) es = some s) {r : Request Ctx π}
    (found : s.requests[i]? = some r) : Knows judgement limit es i r := by
  refine history (P := fun es s => ∀ (i : Nat) r, s.requests[i]? = some r →
    Knows judgement limit es i r) (by simp [start]) ?_ ran i r found
  intro es s e t ran known stepped j r found
  rcases step_cases (run_valid ran) stepped with
    ⟨context, _, _, requests⟩ | ⟨i, r', phase, here, moved, requests⟩ | ⟨_, _, requests, _⟩
  · rw [requests] at found
    rcases Pool.getElem?_concat_eq_some.mp found with earlier | ⟨_, rfl⟩
    · exact (known j r earlier).append [e]
    · obtain ⟨unloaded, notFull⟩ := judgement.enter_phase l context
      exact ⟨by simp [unloaded], by simp [notFull]⟩
  · rw [requests] at found
    rcases Pool.getElem?_modify_cases here found with ⟨rfl, rfl⟩ | ⟨_, earlier⟩
    · exact (known j r' here).moves ran here moved
    · exact (known j r earlier).append [e]
  · rw [requests] at found
    exact (known j r found).append [e]

theorem sawFull_of_rejected (judgement : Judgement l.gate level bound)
    (ran : run (step l) (start l.gate limit) es = some s) {r : Request Ctx π}
    (found : s.requests[i]? = some r) (rejected : r.phase = .rejecting ∨ r.phase = .rejected) :
    SawFull l level bound limit es i r.context := by
  refine (run_knows judgement ran found).2 ?_
  rcases rejected with here | here <;> rw [here] <;> rfl
end State

/-- The value that a failed exchange leaves is as good as a load. -/
def simpleJudgement (Ctx : Type) : Judgement (SimpleLimiter.gate Ctx)
    (fun gauge _ => gauge.inflight) fun limit _ _ => limit where
  loaded
    | .check current => some current
    | _ => none
  full _ := false
  entry_loaded _ := rfl
  entry_full _ := rfl
  loads {limit gauge pc spurious gauge' pc' v} acquired there := by
    change SimpleLimiter.doAcquire limit gauge pc spurious = _ at acquired
    cases pc with
    | load =>
      cases acquired
      exact .inl (Option.some.inj there).symm
    | check current =>
      simp only [SimpleLimiter.doAcquire, Prod.mk.injEq] at acquired
      obtain ⟨_, progress⟩ := acquired
      split at progress <;> cases progress
      contradiction
    | exchange current =>
      simp only [SimpleLimiter.doAcquire] at acquired
      split at acquired <;> cases acquired
      exact .inl (Option.some.inj there).symm
  compares _ full := by contradiction
  rejects {limit gauge pc spurious gauge'} acquired := by
    change SimpleLimiter.doAcquire limit gauge pc spurious = _ at acquired
    cases pc with
    | load => cases acquired
    | check current =>
      simp only [SimpleLimiter.doAcquire, Prod.mk.injEq] at acquired
      obtain ⟨_, progress⟩ := acquired
      split at progress <;> cases progress
      exact .inr ⟨current, rfl, by assumption⟩
    | exchange current =>
      simp only [SimpleLimiter.doAcquire] at acquired
      split at acquired <;> cases acquired

section Partitioned
open AbstractPartitionedLimiter
variable {config : Config Ctx} {limit : Int} {gauge gauge' : Gauge Table} {p : Nat}
  {spurious : Bool} {point : Point} {progress : Progress Point} {pc pc' : Pc}

/-- What a call has loaded of the whole limiter, and whether it has found that full. -/
def globalLoaded : Point → Option Int
  | .loadLimit inflight => some inflight
  | _ => none

def globalFull : Point → Bool
  | .loadInflight | .loadLimit _ | .burst | .reserve => false
  | _ => true

/-- The same of its partition. -/
def ownLoaded : Point → Option Int
  | .loadQuota current | .exchange current => some current
  | _ => none

def ownFull : Point → Bool
  | .loadDelayed | .exchangeDelayed _ | .sleep | .wake => true
  | _ => false

/-- One operation, as far as what it lets its call know. -/
structure Learns (limit : Int) (gauge : Gauge Table) (p : Nat) (point : Point)
    (progress : Progress Point) : Prop where
  globalLoads : ∀ {next v}, progress = .running next → globalLoaded next = some v →
    v = gauge.inflight
  globalCompares : ∀ {next}, progress = .running next → globalFull next = true →
    globalFull point = true ∨ ∃ v, globalLoaded point = some v ∧ limit ≤ v
  globalRejects : progress = .finished none → globalFull point = true
  ownLoads : ∀ {next v}, progress = .running next → ownLoaded next = some v →
    v = gauge.sub.busy p ∨ ownLoaded point = some v
  ownCompares : ∀ {next}, progress = .running next → ownFull next = true →
    ownFull point = true ∨ ∃ v, ownLoaded point = some v ∧ gauge.sub.limit p ≤ v
  ownRejects : progress = .finished none →
    ownFull point = true ∨ ∃ v, ownLoaded point = some v ∧ gauge.sub.limit p ≤ v

theorem Learns.of_running {next : Point}
    (globalLoads : ∀ v, globalLoaded next = some v → v = gauge.inflight)
    (globalCompares : globalFull next = true →
      globalFull point = true ∨ ∃ v, globalLoaded point = some v ∧ limit ≤ v)
    (ownLoads : ∀ v, ownLoaded next = some v →
      v = gauge.sub.busy p ∨ ownLoaded point = some v)
    (ownCompares : ownFull next = true →
      ownFull point = true ∨ ∃ v, ownLoaded point = some v ∧ gauge.sub.limit p ≤ v) :
    Learns limit gauge p point (.running next) := by
  constructor
  · rintro _ v ⟨⟩
    exact globalLoads v
  · rintro _ ⟨⟩
    exact globalCompares
  · simp
  · rintro _ v ⟨⟩
    exact ownLoads v
  · rintro _ ⟨⟩
    exact ownCompares
  · simp

theorem Learns.of_rejected (globally : globalFull point = true)
    (own : ownFull point = true ∨ ∃ v, ownLoaded point = some v ∧ gauge.sub.limit p ≤ v) :
    Learns limit gauge p point (.finished none) := by
  constructor <;> simp [globally, own]

theorem learns_backoff (globally : globalFull point = true) (own : ownFull point = true)
    (current : Int) : Learns limit gauge p point (config.backoff current) := by
  rw [Config.backoff]
  split
  · exact .of_running (by simp [globalLoaded]) (fun _ => .inl globally) (by simp [ownLoaded])
      fun _ => .inl own
  · exact .of_rejected globally (.inl own)

theorem operation_learns
    (operated : config.operation limit gauge p spurious point = (gauge', progress)) :
    Learns limit gauge p point progress := by
  cases point <;> simp only [Config.operation] at operated
  case loadInflight =>
    cases operated
    exact .of_running (by simp [globalLoaded]) (by simp [globalFull]) (by simp [ownLoaded])
      (by simp [ownFull])
  case loadLimit inflight =>
    cases operated
    split
    · exact .of_running (by simp [globalLoaded]) (fun _ => .inr ⟨inflight, rfl, by assumption⟩)
        (by simp [ownLoaded]) (by simp [ownFull])
    · exact .of_running (by simp [globalLoaded]) (by simp [globalFull]) (by simp [ownLoaded])
        (by simp [ownFull])
  case burst =>
    cases operated
    exact .of_running (by simp [globalLoaded]) (by simp [globalFull]) (by simp [ownLoaded])
      (by simp [ownFull])
  case reserve =>
    cases operated
    constructor <;> simp
  case loadBusy =>
    cases operated
    exact .of_running (by simp [globalLoaded]) (fun _ => .inl rfl) (by simp [ownLoaded])
      (by simp [ownFull])
  case loadQuota current =>
    cases operated
    by_cases full : current ≥ gauge.sub.limit p
    · rw [if_pos full]
      split
      · exact .of_rejected rfl (.inr ⟨current, rfl, full⟩)
      · exact .of_running (by simp [globalLoaded]) (fun _ => .inl rfl) (by simp [ownLoaded])
          fun _ => .inr ⟨current, rfl, full⟩
    · rw [if_neg full]
      exact .of_running (by simp [globalLoaded]) (fun _ => .inl rfl) (by simp [ownLoaded])
        (by simp [ownFull])
  case exchange current =>
    split at operated <;> cases operated
    · exact .of_running (by simp [globalLoaded]) (fun _ => .inl rfl) (by simp [ownLoaded])
        (by simp [ownFull])
    · exact .of_running (by simp [globalLoaded]) (fun _ => .inl rfl) (by simp [ownLoaded])
        (by simp [ownFull])
  case loadDelayed =>
    cases operated
    exact learns_backoff rfl rfl _
  case exchangeDelayed current =>
    split at operated <;> cases operated
    · exact .of_running (by simp [globalLoaded]) (fun _ => .inl rfl) (by simp [ownLoaded])
        fun _ => .inl rfl
    · exact learns_backoff rfl rfl _
  case sleep =>
    cases operated
    exact .of_running (by simp [globalLoaded]) (fun _ => .inl rfl) (by simp [ownLoaded])
      fun _ => .inl rfl
  case wake =>
    cases operated
    exact .of_rejected rfl (.inl rfl)

theorem doAcquire_running
    (acquired : doAcquire config limit gauge pc spurious = (gauge', .running pc')) :
    Learns limit gauge pc.partitionIndex pc.point (.running pc'.point) := by
  rw [doAcquire] at acquired
  rcases operated : config.operation limit gauge pc.partitionIndex spurious pc.point with
    ⟨after, point' | result⟩ <;> rw [operated] at acquired <;> cases acquired
  exact operation_learns operated

theorem doAcquire_rejected
    (acquired : doAcquire config limit gauge pc spurious = (gauge', .finished none)) :
    Learns limit gauge pc.partitionIndex pc.point (.finished none) := by
  rw [doAcquire] at acquired
  rcases operated : config.operation limit gauge pc.partitionIndex spurious pc.point with
    ⟨after, point' | other⟩ <;> rw [operated] at acquired <;> cases acquired
  exact operation_learns operated

def globalJudgement (config : Config Ctx) : Judgement (AbstractPartitionedLimiter.gate config)
    (fun gauge _ => gauge.inflight) fun limit _ _ => limit where
  loaded pc := globalLoaded pc.point
  full pc := globalFull pc.point
  entry_loaded _ := rfl
  entry_full _ := rfl
  loads acquired there := .inl ((doAcquire_running acquired).globalLoads rfl there)
  compares acquired full := (doAcquire_running acquired).globalCompares rfl full
  rejects acquired := .inl ((doAcquire_rejected acquired).globalRejects rfl)

def ownJudgement (config : Config Ctx) : Judgement (AbstractPartitionedLimiter.gate config)
    (fun gauge pc => gauge.sub.busy pc.partitionIndex)
    fun _ gauge pc => gauge.sub.limit pc.partitionIndex where
  loaded pc := ownLoaded pc.point
  full pc := ownFull pc.point
  entry_loaded _ := rfl
  entry_full _ := rfl
  loads acquired there := (doAcquire_running acquired).ownLoads rfl there
  compares acquired full := (doAcquire_running acquired).ownCompares rfl full
  rejects acquired := (doAcquire_rejected acquired).ownRejects rfl

end Partitioned

/-- Two moments of a call inside `DoAcquire`, the second no earlier than the first. -/
def State.DuringCall (l : Limiter Ctx σ π) (limit : Int) (es : List (Event Ctx)) (i : Nat)
    (context : Ctx) (P : State Ctx σ π → State Ctx σ π → Prop) : Prop :=
  ∃ before middle after u w pc pc', es = before ++ middle ++ after ∧
    run (step l) (start l.gate limit) before = some u ∧ run (step l) u middle = some w ∧
    u.requests[i]? = some ⟨context, .acquiring pc⟩ ∧
    w.requests[i]? = some ⟨context, .acquiring pc'⟩ ∧ P u w

theorem State.SawFull.duringCall {l : Limiter Ctx σ π} {limit : Int} {es : List (Event Ctx)}
    {i : Nat} {context : Ctx} {P : State Ctx σ π → State Ctx σ π → Prop}
    (saw : SawFull l level bound limit es i context)
    (reads : ∀ {before middle u w pc pc'}, run (step l) (start l.gate limit) before = some u →
      run (step l) (start l.gate limit) (before ++ middle) = some w →
      u.requests[i]? = some ⟨context, .acquiring pc⟩ →
      w.requests[i]? = some ⟨context, .acquiring pc'⟩ →
      bound w.limit w.toGauge pc' ≤ level u.toGauge pc → P u w) :
    DuringCall l limit es i context P := by
  obtain ⟨before, middle, after, u, w, pc, pc', rfl, first, rest, loading, reading, below⟩ := saw
  refine ⟨before, middle, after, u, w, pc, pc', rfl, first, rest, loading, reading, ?_⟩
  exact reads first (run_append_eq_some.mpr ⟨u, first, rest⟩) loading reading below

/-- Whatever the interleaving and the changes of the cap, a call that a `SimpleLimiter` turns
away has found the limiter full; one that a partitioned limiter turns away has found both the
whole limiter and its own partition full. -/
theorem rejected_only_when_full (bypass : Ctx → Bool) (limit : Int) (es : List (Event Ctx))
    (i : Nat) :
    (∀ s r, run (State.step (SimpleLimiter.limiter bypass))
        (State.start (SimpleLimiter.gate Ctx) limit) es = some s → s.requests[i]? = some r →
      r.phase = .rejecting ∨ r.phase = .rejected →
      State.DuringCall (SimpleLimiter.limiter bypass) limit es i r.context
        fun u w => w.limit ≤ u.inflight) ∧
    ∀ config s r, run (State.step (AbstractPartitionedLimiter.limiter config bypass))
        (State.start (AbstractPartitionedLimiter.gate config) limit) es = some s →
      s.requests[i]? = some r → r.phase = .rejecting ∨ r.phase = .rejected →
      State.DuringCall (AbstractPartitionedLimiter.limiter config bypass) limit es i r.context
        (fun u w => w.limit ≤ u.inflight) ∧
      State.DuringCall (AbstractPartitionedLimiter.limiter config bypass) limit es i r.context
        fun u w => w.sub.limit (config.resolvePartition r.context) ≤
          u.sub.busy (config.resolvePartition r.context) := by
  constructor
  · intro s r ran found rejected
    exact (State.sawFull_of_rejected (simpleJudgement Ctx) ran found rejected).duringCall
      fun _ _ _ _ below => below
  · intro config s r ran found rejected
    constructor
    · exact (State.sawFull_of_rejected (globalJudgement config) ran found rejected).duringCall
        fun _ _ _ _ below => below
    · refine (State.sawFull_of_rejected (ownJudgement config) ran found rejected).duringCall ?_
      intro before middle u w pc pc' first second loading reading below
      have routed : pc.partitionIndex = config.resolvePartition r.context :=
        AbstractPartitionedLimiter.run_routed first loading
      have routed' : pc'.partitionIndex = config.resolvePartition r.context :=
        AbstractPartitionedLimiter.run_routed second reading
      rwa [routed, routed'] at below

open AbstractPartitionedLimiter in
/-- The second call finds the cap of one and its partition's quota of one in use. -/
def turnedAway : List (Event String) :=
  [.tryAcquire "gold", .advance 0 {}, .advance 0 {}, .advance 0 {}, .advance 0 {},
    .tryAcquire "gold", .advance 1 {}, .advance 1 {}, .advance 1 {}, .advance 1 {}]

open AbstractPartitionedLimiter in
theorem turnedAway_only_when_full :
    State.DuringCall (limiter twoHalves fun _ => false) 1 turnedAway 1 "gold"
      (fun u w => w.limit ≤ u.inflight) ∧
    State.DuringCall (limiter twoHalves fun _ => false) 1 turnedAway 1 "gold"
      fun u w => w.sub.limit (twoHalves.resolvePartition "gold") ≤
        u.sub.busy (twoHalves.resolvePartition "gold") := by
  have reached : (run (State.step (limiter twoHalves fun _ => false)) (initial twoHalves 1)
      turnedAway).map (fun s => s.requests[1]?) = some (some ⟨"gold", .rejecting⟩) := by
    decide +kernel
  obtain ⟨s, ran, found⟩ := Option.map_eq_some_iff.mp reached
  exact (rejected_only_when_full (fun _ => false) 1 turnedAway 1).2 twoHalves s _ ran found
    (.inl rfl)
end Limen.AbstractLimiter
