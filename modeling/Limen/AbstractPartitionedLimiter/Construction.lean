import Limen.AbstractPartitionedLimiter.Isolation

/-! The constructor of `AbstractPartitionedLimiter` among updates of the wrapped limit by other
threads. It reads the cap and fills the table of quotas before it registers the callback that
keeps the table up to date; a change in between reaches nobody. -/
namespace Limen.AbstractPartitionedLimiter
open AbstractLimiter Transition
variable {Ctx : Type}

/-- Where the constructor is: before `GetLimit()`, at a store of `RecomputePartitionLimits` or,
after the last one, at `NotifyOnChange`, before `RegisterPartitionInstruments`, done. -/
inductive Stage where
  | loading
  | recomputing (loaded : Int) (p : Nat)
  | instrumenting
  | finished
  deriving DecidableEq, Repr

def Stage.registered : Stage → Bool
  | .instrumenting | .finished => true
  | .loading | .recomputing _ _ => false

structure Construction (Ctx : Type) where
  stage : Stage
  limiter : State Ctx Table Pc

namespace Construction

inductive Event (Ctx : Type) where
  | construct
  | limiter (e : AbstractLimiter.Event Ctx)

/-- The partitions as `Build` has allocated them. -/
def start (config : Config Ctx) (limit : Int) : Construction Ctx :=
  ⟨.loading, { initial config limit with sub := ⟨fun _ => 0, fun _ => 0, 0⟩ }⟩

/-- An update of the wrapped limit calls back what is registered. -/
def view (config : Config Ctx) (bypass : Ctx → Bool) (stage : Stage) : Limiter Ctx Table Pc :=
  ⟨if stage.registered then gate config else { gate config with callbackStores := 0 }, bypass⟩

/-- There are no calls before the constructor has returned; updates there may be. -/
def enabled (stage : Stage) : AbstractLimiter.Event Ctx → Bool
  | .setLimit _ | .notify => true
  | .tryAcquire _ | .advance _ _ | .guard _ => stage = .finished

def step (config : Config Ctx) (bypass : Ctx → Bool) (s : Construction Ctx) :
    Event Ctx → Option (Construction Ctx)
  | .construct =>
    match s.stage with
    | .loading => some { s with stage := .recomputing s.limiter.limit 0 }
    | .recomputing loaded p =>
      if p < config.partitions.length then
        some ⟨.recomputing loaded (p + 1),
          { s.limiter with sub := recompute config loaded p s.limiter.sub }⟩
      else
        -- `NotifyOnChange` waits for the mutex of an update in progress.
        match s.limiter.publishing with
        | some _ => none
        | none => some { s with stage := .instrumenting }
    | .instrumenting => some { s with stage := .finished }
    | .finished => none
  | .limiter e =>
    if enabled s.stage e then
      (s.limiter.step (view config bypass s.stage) e).map fun limiter => { s with limiter }
    else none

variable {config : Config Ctx} {bypass : Ctx → Bool} {s t : Construction Ctx} {e : Event Ctx}

/-- The first `n` quotas are those of the cap `value`. -/
def Filled (config : Config Ctx) (value : Int) (n : Nat) (table : Table) : Prop :=
  ∀ p < n, table.limit p = config.computePartitionLimit value (config.percent p)

theorem Filled.recompute {value : Int} {n : Nat} {table : Table}
    (filled : Filled config value n table) :
    Filled config value (n + 1) (recompute config value n table) := by
  intro p small
  simp only [AbstractPartitionedLimiter.recompute, Function.update_apply]
  split
  · rename_i here
    rw [here]
  · exact filled p (by omega)

/-- The quotas are those of the cap, up to what an update in progress has still to store. -/
def Follows (config : Config Ctx) (u : State Ctx Table Pc) : Prop :=
  match u.publishing with
  | none => Filled config u.limit config.partitions.length u.sub
  | some (value, stores) => value = u.limit ∧ Filled config value stores u.sub

/-- How far the quotas are known, by what the constructor has still to do. -/
def Tracks (config : Config Ctx) (s : Construction Ctx) : Prop :=
  match s.stage with
  | .loading => True
  | .recomputing loaded p => p ≤ config.partitions.length ∧ Filled config loaded p s.limiter.sub
  | .instrumenting | .finished => Follows config s.limiter

/-- The callback is registered while the cap still gives every partition the quota of the cap
that the constructor has loaded. -/
def Timely (config : Config Ctx) (s : Construction Ctx) : Event Ctx → Prop
  | .construct =>
    match s.stage with
    | .recomputing loaded p => p = config.partitions.length → ∀ q < config.partitions.length,
      config.computePartitionLimit s.limiter.limit (config.percent q) =
        config.computePartitionLimit loaded (config.percent q)
    | _ => True
  | .limiter _ => True

instance (config : Config Ctx) (s : Construction Ctx) :
    (e : Event Ctx) → Decidable (Timely config s e)
  | .construct =>
    match stage : s.stage with
    | .recomputing loaded p => decidable_of_iff (p = config.partitions.length →
        ∀ q < config.partitions.length,
          config.computePartitionLimit s.limiter.limit (config.percent q) =
            config.computePartitionLimit loaded (config.percent q)) (by simp [Timely, stage])
    | .loading => .isTrue (by simp [Timely, stage])
    | .instrumenting => .isTrue (by simp [Timely, stage])
    | .finished => .isTrue (by simp [Timely, stage])
  | .limiter _ => .isTrue trivial

theorem tracks_construct (tracks : Tracks config s) (timely : Timely config s .construct)
    (stepped : s.step config bypass .construct = some t) : Tracks config t := by
  obtain ⟨stage, limiter⟩ := s
  cases stage with
  | loading =>
    cases stepped
    exact ⟨Nat.zero_le _, fun p impossible => absurd impossible (Nat.not_lt_zero p)⟩
  | recomputing loaded p =>
    obtain ⟨within, filled⟩ := tracks
    simp only [step] at stepped
    split at stepped
    · rename_i more
      cases stepped
      exact ⟨more, filled.recompute⟩
    · rename_i last
      have all : p = config.partitions.length := by omega
      split at stepped
      · contradiction
      · rename_i idle
        cases stepped
        simp only [Tracks, Follows, idle]
        intro q small
        rw [timely all q small]
        exact filled q (all ▸ small)
  | instrumenting =>
    cases stepped
    exact tracks
  | finished => contradiction

/-- A step of the limiter leaves cap and quotas alone, or it begins an update, makes the next
store of its callback or ends it. -/
theorem limiter_step {l : Limiter Ctx Table Pc} {u v : State Ctx Table Pc}
    {e : AbstractLimiter.Event Ctx} (calls : enabled .loading e = false → l.gate = gate config)
    (stores : l.gate.limitChanged = AbstractPartitionedLimiter.recompute config)
    (stepped : u.step l e = some v) :
    (v.limit = u.limit ∧ v.publishing = u.publishing ∧ v.sub.limit = u.sub.limit) ∨
      (∃ value, v.limit = value ∧ v.publishing = some (value, 0) ∧ v.sub = u.sub) ∨
      ∃ value n, u.publishing = some (value, n) ∧ v.limit = u.limit ∧
        ((n < l.gate.callbackStores ∧ v.publishing = some (value, n + 1) ∧
            v.sub = AbstractPartitionedLimiter.recompute config value n u.sub) ∨
          (l.gate.callbackStores ≤ n ∧ v.publishing = none ∧ v.sub = u.sub)) := by
  cases e with
  | tryAcquire context =>
    cases stepped
    exact .inl ⟨rfl, rfl, rfl⟩
  | guard op =>
    obtain ⟨heap, completion, _, rfl⟩ := State.step_guard stepped
    exact .inl ⟨rfl, rfl, rfl⟩
  | advance i input =>
    obtain ⟨r, c, phase, made, heap, _, advanced, _, rfl⟩ := State.step_advance stepped
    rw [calls rfl] at advanced
    obtain ⟨limit, quotas⟩ := moves_quotas (i := i) (.advance advanced)
    exact .inl ⟨limit, rfl, quotas⟩
  | setLimit value =>
    simp only [State.step] at stepped
    split at stepped
    · contradiction
    · split at stepped
      · cases stepped
        exact .inl ⟨rfl, rfl, rfl⟩
      · cases stepped
        exact .inr (.inl ⟨value, rfl, rfl, rfl⟩)
  | notify =>
    simp only [State.step] at stepped
    split at stepped
    · contradiction
    · rename_i value n publishing
      refine .inr (.inr ⟨value, n, publishing, ?_⟩)
      split at stepped
      · rename_i more
        cases stepped
        exact ⟨rfl, .inl ⟨more, rfl, by rw [stores]⟩⟩
      · rename_i last
        cases stepped
        exact ⟨rfl, .inr ⟨Nat.not_lt.mp last, rfl, rfl⟩⟩

theorem follows_step {l : Limiter Ctx Table Pc} {u v : State Ctx Table Pc}
    {e : AbstractLimiter.Event Ctx} (registered : l.gate = gate config) (follows : Follows config u)
    (stepped : u.step l e = some v) : Follows config v := by
  have stores : l.gate.limitChanged = AbstractPartitionedLimiter.recompute config := by
    rw [registered]
    rfl
  have all : l.gate.callbackStores = config.partitions.length := by
    rw [registered]
    rfl
  rcases limiter_step (fun _ => registered) stores stepped with ⟨limit, publishing, quotas⟩ |
    ⟨value, limit, publishing, _⟩ |
    ⟨value, n, before, limit, ⟨_, publishing, sub⟩ | ⟨last, none, sub⟩⟩
  · simpa only [Follows, Filled, limit, publishing, quotas] using follows
  · simp only [Follows, publishing]
    exact ⟨limit.symm, fun p impossible => absurd impossible (Nat.not_lt_zero p)⟩
  · simp only [Follows, before] at follows
    simp only [Follows, publishing]
    refine ⟨follows.1.trans limit.symm, ?_⟩
    rw [sub]
    exact follows.2.recompute
  · simp only [Follows, before] at follows
    obtain ⟨same, filled⟩ := follows
    simp only [Follows, none]
    intro p small
    rw [sub, limit, ← same]
    exact filled p (by omega)

theorem tracks_limiter {event : AbstractLimiter.Event Ctx} (tracks : Tracks config s)
    (stepped : s.step config bypass (.limiter event) = some t) : Tracks config t := by
  simp only [step] at stepped
  split at stepped
  · rename_i allowed
    obtain ⟨v, moved, rfl⟩ := Option.map_eq_some_iff.mp stepped
    obtain ⟨stage, u⟩ := s
    cases stage with
    | loading => trivial
    | recomputing loaded p =>
      obtain ⟨within, filled⟩ := tracks
      refine ⟨within, fun q small => ?_⟩
      have notCall (call : enabled .loading event = false) : False := by
        cases event <;> simp_all [enabled]
      have kept : v.sub.limit = u.sub.limit := by
        rcases limiter_step (fun call => (notCall call).elim) rfl moved with
          ⟨_, _, same⟩ | ⟨_, _, _, same⟩ | ⟨_, n, _, _, ⟨more, _⟩ | ⟨_, _, same⟩⟩
        · exact same
        · rw [same]
        · exact absurd more (Nat.not_lt_zero n)
        · rw [same]
      rw [kept]
      exact filled q small
    | instrumenting => exact follows_step rfl tracks moved
    | finished => exact follows_step rfl tracks moved
  · contradiction

theorem tracks_step (tracks : Tracks config s) (timely : Timely config s e)
    (stepped : s.step config bypass e = some t) : Tracks config t := by
  cases e with
  | construct => exact tracks_construct tracks timely stepped
  | limiter event => exact tracks_limiter tracks stepped

/-- In every run that registers the callback in time: once the constructor has returned and
while no update is in progress, every partition's quota is that of the cap. -/
theorem quotas_track_cap {limit : Int} {es : List (Event Ctx)}
    (ran : run (step config bypass) (start config limit) es = some s)
    (timely : Along (step config bypass) (Timely config) (start config limit) es)
    (finished : s.stage = .finished) (idle : s.limiter.publishing = none) (p : Nat)
    (partition : Partition) (declared : config.partitions[p]? = some partition) :
    s.limiter.sub.limit p = config.computePartitionLimit s.limiter.limit partition.percent := by
  have tracks : Tracks config s := invariant_along (P := Tracks config)
    (fun tracks timely stepped => tracks_step tracks timely stepped) ran timely trivial
  simp only [Tracks, finished, Follows, idle] at tracks
  have percent : config.percent p = partition.percent := by simp [Config.percent, declared]
  rw [tracks p (List.getElem?_eq_some_iff.mp declared).1, percent]

theorem run_recompute (bypass : Ctx → Bool) (limit : Int) {n p : Nat} {u : State Ctx Table Pc}
    (left : p + n = config.partitions.length) (filled : Filled config limit p u.sub) :
    ∃ v, run (step config bypass) ⟨.recomputing limit p, u⟩ (List.replicate n .construct) =
        some ⟨.recomputing limit config.partitions.length, v⟩ ∧ v.publishing = u.publishing ∧
      v.limit = u.limit ∧ Filled config limit config.partitions.length v.sub := by
  induction n generalizing p u with
  | zero =>
    obtain rfl : p = config.partitions.length := left
    exact ⟨u, rfl, rfl, rfl, filled⟩
  | succ n ih =>
    have more : p < config.partitions.length := by omega
    obtain ⟨v, ran, publishing, kept, all⟩ := ih (p := p + 1)
      (u := { u with sub := AbstractPartitionedLimiter.recompute config limit p u.sub })
      (by omega) filled.recompute
    refine ⟨v, ?_, publishing, kept, all⟩
    rw [List.replicate_succ, run_cons]
    simp only [step, if_pos more, Option.bind_some]
    exact ran

/-- Left alone, the constructor ends with the quotas that `initial` starts with. -/
theorem run_construct (config : Config Ctx) (bypass : Ctx → Bool) (limit : Int) :
    ∃ s, run (step config bypass) (start config limit)
        (.construct :: List.replicate config.partitions.length .construct ++
          [.construct, .construct]) = some s ∧
      s.stage = .finished ∧ s.limiter.publishing = none ∧ s.limiter.limit = limit ∧
      ∀ p < config.partitions.length, s.limiter.sub.limit p = (initial config limit).sub.limit p := by
  obtain ⟨v, ran, publishing, kept, filled⟩ := run_recompute bypass limit
    (p := 0) (u := (start config limit).limiter) (Nat.zero_add config.partitions.length)
    (fun p impossible => absurd impossible (Nat.not_lt_zero p))
  have idle : v.publishing = none := publishing
  refine ⟨⟨.finished, v⟩, ?_, rfl, idle, kept, filled⟩
  refine run_append_eq_some.mpr ⟨_, run_cons_eq_some.mpr ⟨_, rfl, ran⟩, ?_⟩
  simp [run, step, idle]

/-- The cap is raised from ten to twenty before the constructor reads it, and lowered to five
after it has returned. -/
def aroundConstruction : List (Event String) :=
  [.limiter (.setLimit 20), .construct, .construct, .limiter .notify, .construct, .construct,
    .construct, .construct, .limiter (.setLimit 5), .limiter .notify, .limiter .notify,
    .limiter .notify, .limiter .notify]

theorem aroundConstruction_tracks : ∃ s,
    run (step twoHalves fun _ => false) (start twoHalves 10) aroundConstruction = some s ∧
    s.stage = .finished ∧ s.limiter.publishing = none ∧ s.limiter.limit = 5 ∧
    s.limiter.sub.limit 0 = 3 := by
  have ended : (run (step twoHalves fun _ => false) (start twoHalves 10) aroundConstruction).map
      (fun s => (s.stage, s.limiter.publishing, s.limiter.limit)) = some (.finished, none, 5) := by
    decide +kernel
  obtain ⟨s, ran, seen⟩ := Option.map_eq_some_iff.mp ended
  simp only [Prod.mk.injEq] at seen
  obtain ⟨finished, idle, limit⟩ := seen
  have timely : Along (step twoHalves fun _ => false) (Timely twoHalves) (start twoHalves 10)
      aroundConstruction := by decide +kernel
  have quota := quotas_track_cap ran timely finished idle 0 ⟨"gold", .rat (1 / 2), 0⟩ rfl
  refine ⟨s, ran, finished, idle, limit, ?_⟩
  rw [quota, limit]
  decide +kernel

/-- The cap is raised from ten to twenty while the constructor fills the table. -/
def duringConstruction : List (Event String) :=
  [.construct, .construct, .limiter (.setLimit 20), .limiter .notify, .construct, .construct,
    .construct, .construct]

theorem duringConstruction_stale :
    ¬ ∀ s, run (step twoHalves fun _ => false) (start twoHalves 10) duringConstruction = some s →
      s.stage = .finished → s.limiter.publishing = none →
      ∀ p partition, twoHalves.partitions[p]? = some partition →
        s.limiter.sub.limit p =
          twoHalves.computePartitionLimit s.limiter.limit partition.percent := by
  intro tracked
  have ended : (run (step twoHalves fun _ => false) (start twoHalves 10) duringConstruction).map
      (fun s => (s.stage, s.limiter.publishing, s.limiter.limit, s.limiter.sub.limit 0)) =
        some (.finished, none, 20, 5) := by
    decide +kernel
  obtain ⟨s, ran, seen⟩ := Option.map_eq_some_iff.mp ended
  simp only [Prod.mk.injEq] at seen
  obtain ⟨finished, idle, limit, stale⟩ := seen
  have quota := tracked s ran finished idle 0 ⟨"gold", .rat (1 / 2), 0⟩ rfl
  rw [stale, limit] at quota
  revert quota
  decide +kernel
end Construction
end Limen.AbstractPartitionedLimiter
