import Limen.AbstractPartitionedLimiter.Conservation

/-! The reserved share of a partition over a fixed cap. Whatever the other partitions do, a
partition with no more calls under way than its quota is never turned away. -/
namespace Limen.AbstractPartitionedLimiter
open AbstractLimiter AbstractLimiter.State Transition
variable {Ctx : Type} {config : Config Ctx} {bypass : Ctx → Bool} {cap : Int}
  {es : List (Event Ctx)} {s t : State Ctx Table Pc}

theorem moves_quotas {i : Nat} {c c' : Counters Table} {e : Event Ctx} {phase phase' : Phase Pc}
    (moved : Moves (gate config) i c e phase c' phase') :
    c'.limit = c.limit ∧ c'.sub.limit = c.sub.limit := by
  cases moved with
  | complete op call own limited => exact ⟨rfl, rfl⟩
  | advance advanced =>
    rename_i input made
    refine ⟨advance_limit advanced, ?_⟩
    cases phase <;> simp only [Phase.advance, Option.some.injEq, Prod.mk.injEq, reduceCtorEq]
      at advanced <;> obtain ⟨rfl, rfl, rfl⟩ := advanced
    case acquiring pc =>
      dsimp only [gate, doAcquire]
      rcases operation_cases config c.limit c.toGauge pc.partitionIndex input.spurious pc.point with
        ⟨_, operated⟩ | ⟨_, operated⟩ | ⟨_, _, _, operated, _⟩ <;>
        simp [operated, Table.addBusy]
    all_goals rfl

/-- The cap is fixed, nothing is being published and every quota is that of the cap. -/
structure Fixed (config : Config Ctx) (cap : Int) (s : State Ctx Table Pc) : Prop where
  limit : s.limit = cap
  unpublished : s.publishing = none
  quotas : ∀ p, s.sub.limit p = config.computePartitionLimit cap (config.percent p)

theorem fixed_step {e : Event Ctx} (fixed : Fixed config cap s)
    (constant : ∀ value, e = .setLimit value → value = cap)
    (stepped : s.step (limiter config bypass) e = some t) : Fixed config cap t := by
  cases e with
  | setLimit value =>
    obtain rfl := constant value rfl
    simp only [step, fixed.unpublished, fixed.limit, if_true, Option.some.injEq] at stepped
    exact stepped ▸ fixed
  | notify =>
    simp only [step, fixed.unpublished] at stepped
    contradiction
  | tryAcquire context =>
    cases stepped
    exact ⟨fixed.limit, fixed.unpublished, fixed.quotas⟩
  | guard op =>
    obtain ⟨heap, completion, _, rfl⟩ := step_guard stepped
    exact ⟨fixed.limit, fixed.unpublished, fixed.quotas⟩
  | advance i input =>
    obtain ⟨r, c, phase, made, heap, _, advanced, _, rfl⟩ := step_advance stepped
    obtain ⟨limit, quotas⟩ := moves_quotas (i := i) (.advance advanced)
    exact ⟨limit.trans fixed.limit, fixed.unpublished, fun p => quotas ▸ fixed.quotas p⟩

theorem run_fixed (ran : run (step (limiter config bypass)) (initial config cap) es = some s)
    (constant : ∀ value, .setLimit value ∈ es → value = cap) : Fixed config cap s := by
  refine history (P := fun es s => (∀ value, .setLimit value ∈ es → value = cap) →
    Fixed config cap s) (fun _ => ⟨rfl, rfl, fun _ => rfl⟩) ?_ ran constant
  intro es s e t before fixed stepped constant
  refine fixed_step (fixed ?_) ?_ stepped
  · intro value member
    exact constant value (List.mem_append_left _ member)
  · rintro value rfl
    exact constant value (by simp)

/-- The call is inside `TryAcquire`, its slot is outstanding, or its partition is still to be
released. -/
def underWay : Phase Pc → Bool
  | .acquiring _ | .rejecting | .admitted _ | .held _ | .decrementing _ | .releasingPartition _ =>
    true
  | .bypassing | .rejected | .bypassed | .counting _ | .sampling _ | .completed _ => false

/-- A call of partition `p` that is not bypassed and that is under way. -/
def underWayIn (config : Config Ctx) (bypass : Ctx → Bool) (p : Nat) (r : Request Ctx Pc) : Bool :=
  !bypass r.context && config.resolvePartition r.context == p && underWay r.phase

theorem occupies_underWay {p q : Nat} {phase : Phase Pc} (routed : Routed q phase)
    (occupied : occupies p phase = true) : q = p ∧ underWay phase = true ∧
      phase.bypasses = false := by
  cases phase <;> simp only [Routed] at routed <;>
    simp_all [occupies, outstandingIn, reservingIn, releasingIn, underWay, Phase.bypasses]

/-- While a call of the partition is at a point where it has not reserved, the counter of
the partition is short of the number of its calls under way. -/
theorem busy_lt {p : Nat} (ran : run (step (limiter config bypass)) (initial config cap) es = some s)
    {i : Nat} {r : Request Ctx Pc} (found : s.requests[i]? = some r)
    (mine : underWayIn config bypass p r = true) (outside : occupies p r.phase = false) :
    s.sub.busy p < s.requests.countP (underWayIn config bypass p) := by
  rw [busy_eq ran p]
  refine Int.ofNat_lt.mpr (Pool.countP_lt ?_ found outside mine)
  intro other member occupied
  obtain ⟨j, at'⟩ := List.mem_iff_getElem?.mp member
  obtain ⟨here, present, limited⟩ := occupies_underWay (run_routed ran at') occupied
  have plain : bypass other.context = false := (run_bypasses ran at').symm.trans limited
  simp [underWayIn, plain, here, present]

/-- The call has not been turned away and is not on the way to it. -/
def Spared (quota : Int) : Phase Pc → Prop
  | .acquiring ⟨_, .loadQuota current⟩ => current < quota
  | .acquiring ⟨_, .loadDelayed⟩ | .acquiring ⟨_, .exchangeDelayed _⟩ | .acquiring ⟨_, .sleep⟩
  | .acquiring ⟨_, .wake⟩ | .rejecting | .rejected => False
  | _ => True

/-- A call is turned away only by a reading of its partition's counter; one below the quota
spares it. -/
theorem spared_advance {c c' : Counters Table} {input : Input} {p : Nat} {phase phase' : Phase Pc}
    {made : Option (Slot Unit)} (routed : Routed p phase) (spared : Spared (c.sub.limit p) phase)
    (free : ∀ pc, phase = .acquiring pc → occupies p phase = false →
      c.sub.busy p < c.sub.limit p)
    (advanced : phase.advance (gate config) c input = some (c', phase', made)) :
    Spared (c.sub.limit p) phase' := by
  cases phase <;> simp only [Phase.advance, Option.some.injEq, Prod.mk.injEq, reduceCtorEq]
    at advanced <;> obtain ⟨rfl, rfl, rfl⟩ := advanced
  case acquiring pc =>
    obtain ⟨q, point⟩ := pc
    obtain rfl : q = p := routed
    cases point <;> simp only [gate, doAcquire, Config.operation, Pc.progress, Progress.phase]
    case loadLimit inflight => split <;> trivial
    case loadBusy => exact free _ rfl rfl
    case loadQuota current =>
      rw [if_neg (Int.not_le.mpr spared)]
      trivial
    case exchange current =>
      by_cases swapped : c.sub.busy q = current ∧ ¬ input.spurious
      · rw [if_pos swapped]
        trivial
      · rw [if_neg swapped]
        exact free _ rfl rfl
    case loadDelayed => exact absurd spared id
    case exchangeDelayed => exact absurd spared id
    all_goals trivial
  case counting call => split <;> trivial
  case rejecting => exact absurd spared id
  all_goals trivial

/-- No more calls of the partition are under way than its quota has room for. -/
def WithinShare (config : Config Ctx) (bypass : Ctx → Bool) (cap : Int) (p : Nat)
    (s : State Ctx Table Pc) : Prop :=
  s.requests.countP (underWayIn config bypass p) ≤
    config.computePartitionLimit cap (config.percent p)

instance (p : Nat) (s : State Ctx Table Pc) : Decidable (WithinShare config bypass cap p s) :=
  inferInstanceAs (Decidable (_ ≤ _))

/-- Every call of the partition has been spared. -/
def AllSpared (config : Config Ctx) (bypass : Ctx → Bool) (cap : Int) (p : Nat)
    (s : State Ctx Table Pc) : Prop :=
  ∀ (i : Nat) r, s.requests[i]? = some r → bypass r.context = false →
    config.resolvePartition r.context = p →
    Spared (config.computePartitionLimit cap (config.percent p)) r.phase

theorem spared_step {p : Nat} {e : Event Ctx}
    (before : run (step (limiter config bypass)) (initial config cap) es = some s)
    (fixed : Fixed config cap s) (within : WithinShare config bypass cap p s)
    (spared : AllSpared config bypass cap p s)
    (stepped : s.step (limiter config bypass) e = some t) : AllSpared config bypass cap p t := by
  intro i r found plain mine
  rcases step_cases (run_valid before) stepped with
    ⟨context, _, _, requests⟩ | ⟨k, r', phase, here, moved, requests⟩ | ⟨_, _, requests, _⟩
  · rw [requests] at found
    rcases Pool.getElem?_concat_eq_some.mp found with old | ⟨_, rfl⟩
    · exact spared i r old plain mine
    · rcases (limiter config bypass).enter_phase context with phase | phase
      · rw [phase]
        trivial
      · rw [phase]
        trivial
  · rw [requests] at found
    rcases Pool.getElem?_modify_cases here found with ⟨rfl, rfl⟩ | ⟨_, old⟩
    · rcases moved.cases with ⟨input, made, _, advanced⟩ | ⟨_, _, _, _, _, _, rfl⟩
      · rw [← fixed.quotas p]
        refine spared_advance (mine ▸ run_routed before here) ?_ ?_ advanced
        · rw [fixed.quotas p]
          exact spared i r' here plain mine
        · intro pc acquiring outside
          have counted : underWayIn config bypass p r' = true := by
            have plain' : bypass r'.context = false := plain
            have mine' : config.resolvePartition r'.context = p := mine
            simp [underWayIn, plain', mine', acquiring, underWay]
          have busy := busy_lt before here counted outside
          rw [fixed.quotas p]
          exact Int.lt_of_lt_of_le busy within
      · trivial
    · exact spared i r old plain mine
  · rw [requests] at found
    exact spared i r found plain mine

/-- Over a fixed cap: in every run in which at every moment at most as many calls of a
partition are under way as its quota, none of its calls is turned away. -/
theorem share_isolated (config : Config Ctx) (bypass : Ctx → Bool) (cap : Int) (p : Nat)
    (es : List (Event Ctx))
    (ran : run (step (limiter config bypass)) (initial config cap) es = some s)
    (constant : ∀ value, .setLimit value ∈ es → value = cap)
    (within : ∀ u, Visits (step (limiter config bypass)) (initial config cap) es u →
      WithinShare config bypass cap p u) :
    ∀ r ∈ s.requests, bypass r.context = false → config.resolvePartition r.context = p →
      r.phase ≠ .rejecting ∧ r.phase ≠ .rejected := by
  have spared : AllSpared config bypass cap p s := by
    refine history (P := fun es s => (∀ value, .setLimit value ∈ es → value = cap) →
      (∀ u, Visits (step (limiter config bypass)) (initial config cap) es u →
        WithinShare config bypass cap p u) → AllSpared config bypass cap p s) ?_ ?_
      ran constant within
    · intro _ _ i r found
      simp [initial, start] at found
    · intro es s e t before spared stepped constant within
      have shorter : ∀ value, .setLimit value ∈ es → value = cap :=
        fun value member => constant value (List.mem_append_left _ member)
      exact spared_step before (run_fixed before shorter)
        (within s ((visits_last before).append [e]))
        (spared shorter fun u visits => within u (visits.append [e])) stepped
  intro r member plain mine
  obtain ⟨i, found⟩ := List.mem_iff_getElem?.mp member
  have here := spared i r found plain mine
  constructor
  · intro rejecting
    rw [rejecting] at here
    exact here
  · intro rejected
    rw [rejected] at here
    exact here

/-- A call of one half takes the only slot, and so does one of the other, in spite of it. -/
def bothHalves : List (Event String) :=
  [.tryAcquire "gold", .advance 0 {}, .advance 0 {}, .advance 0 {}, .advance 0 {}, .advance 0 {},
    .tryAcquire "gold", .advance 1 {}, .advance 1 {}, .advance 1 {}, .advance 1 {}, .advance 1 {},
    .tryAcquire "silver", .advance 2 {}, .advance 2 {}, .advance 2 {}, .advance 2 {},
    .advance 2 { spurious := true }, .advance 2 {}, .advance 2 {}, .advance 2 {},
    .advance 2 { addr := 1 }]

theorem bothHalves_isolated : ∃ s,
    run (step (limiter twoHalves fun _ => false)) (initial twoHalves 1) bothHalves = some s ∧
    (s.requests[1]?.map fun r => r.phase) = some .rejected ∧
    ∀ r ∈ s.requests, twoHalves.resolvePartition r.context = 1 →
      r.phase ≠ .rejecting ∧ r.phase ≠ .rejected := by
  have ended : (run (step (limiter twoHalves fun _ => false)) (initial twoHalves 1) bothHalves).map
      (fun s => (s.requests[1]?.map (fun r => r.phase),
        decide (WithinShare twoHalves (fun _ => false) 1 1 s))) =
      some (some .rejected, true) := by decide +kernel
  obtain ⟨s, ran, seen⟩ := Option.map_eq_some_iff.mp ended
  obtain ⟨turned, last⟩ := Prod.mk.inj seen
  have along : Along (step (limiter twoHalves fun _ => false))
      (fun s _ => WithinShare twoHalves (fun _ => false) 1 1 s) (initial twoHalves 1)
      bothHalves := by decide +kernel
  refine ⟨s, ran, turned, fun r member mine => ?_⟩
  exact share_isolated twoHalves (fun _ => false) 1 1 bothHalves ran (by simp [bothHalves])
    (fun u visits => forall_visits along ran (of_decide_eq_true last) visits) r member rfl mine
end Limen.AbstractPartitionedLimiter
