import Limen.AbstractPartitionedLimiter.Conservation

/-! The delay of rejected calls. The budget of delayed threads is reserved by a load and a retried
exchange, among releases by those who wake up; it is never overdrawn, and no call goes
without its delay unless the budget was exhausted while it was there. -/
namespace Limen.AbstractPartitionedLimiter
open AbstractLimiter AbstractLimiter.State Transition
variable {Ctx : Type} {config : Config Ctx} {bypass : Ctx → Bool} {limit : Int}
  {es : List (Event Ctx)} {s t : State Ctx Table Pc}

/-- The call is in `MaybeBackoffDelay`, past the check for a zero delay. -/
def Point.backsOff : Point → Bool
  | .loadDelayed | .exchangeDelayed _ | .sleep | .wake => true
  | _ => false

/-- It has still to reserve a part of the budget. -/
def Point.reserving : Point → Bool
  | .loadDelayed | .exchangeDelayed _ => true
  | _ => false

/-- What an operation of a call on partition `p` does to `delayed_threads_`, and where it
leads. -/
inductive Delays (config : Config Ctx) (delayed : Int) (p : Nat) :
    Point → Int → Progress Point → Prop
  | reserve : Delays config delayed p (.exchangeDelayed delayed) (delayed + 1) (.running .sleep)
  | sleep : Delays config delayed p .sleep delayed (.running .wake)
  | release : Delays config delayed p .wake (delayed - 1) (.finished none)
  | exhausted {point : Point} (reserving : point.reserving = true)
      (full : config.maxDelayedThreads ≤ delayed) :
      Delays config delayed p point delayed (.finished none)
  | loaded {point : Point} (reserving : point.reserving = true)
      (room : delayed < config.maxDelayedThreads) :
      Delays config delayed p point delayed (.running (.exchangeDelayed delayed))
  | undelayed {current : Int} (zero : config.rejectDelay p = 0) :
      Delays config delayed p (.loadQuota current) delayed (.finished none)
  | rejected {current : Int} (nonzero : config.rejectDelay p ≠ 0) :
      Delays config delayed p (.loadQuota current) delayed (.running .loadDelayed)
  | elsewhere {point next : Point} (outside : point.backsOff = false)
      (stays : next.backsOff = false) : Delays config delayed p point delayed (.running next)
  | admitted (result : AcquireResult) :
      Delays config delayed p .reserve delayed (.finished (some result))

theorem backoff_delays {delayed : Int} {p : Nat} {point : Point}
    (reserving : point.reserving = true) :
    Delays config delayed p point delayed (config.backoff delayed) := by
  rw [Config.backoff]
  split
  · exact .loaded reserving ‹_›
  · exact .exhausted reserving (Int.not_lt.mp ‹_›)

theorem operation_delays (config : Config Ctx) (limit : Int) (gauge : Gauge Table) (p : Nat)
    (spurious : Bool) (point : Point) :
    Delays config gauge.sub.delayedThreads p point
      (config.operation limit gauge p spurious point).1.sub.delayedThreads
      (config.operation limit gauge p spurious point).2 := by
  cases point <;> simp only [Config.operation]
  case loadLimit inflight => exact .elsewhere rfl (by split <;> rfl)
  case loadQuota current =>
    split_ifs with full zero
    · exact .undelayed zero
    · exact .rejected zero
    · exact .elsewhere rfl rfl
  case exchange current => split <;> exact .elsewhere rfl rfl
  case reserve => exact .admitted _
  case loadDelayed => exact backoff_delays rfl
  case exchangeDelayed current =>
    split
    · rename_i swapped
      obtain ⟨rfl, _⟩ := swapped
      exact .reserve
    · exact backoff_delays rfl
  case sleep => exact .sleep
  case wake => exact .release
  all_goals exact .elsewhere rfl rfl

/-- The call has been admitted or bypassed, and has nothing more to do with the budget. -/
def unconcerned : Phase Pc → Bool
  | .acquiring _ | .rejecting | .rejected => false
  | _ => true

/-- A move of a call, as the budget sees it. -/
inductive Backoff (config : Config Ctx) (delayed : Int) : Phase Pc → Int → Phase Pc → Prop
  | acquiring {p : Nat} {point : Point} {delayed' : Int} {progress : Progress Point}
      (delays : Delays config delayed p point delayed' progress) :
      Backoff config delayed (.acquiring ⟨p, point⟩) delayed' (Pc.progress p progress).phase
  | rejecting : Backoff config delayed .rejecting delayed .rejected
  | other {phase phase' : Phase Pc} (before : unconcerned phase = true)
      (after : unconcerned phase' = true) : Backoff config delayed phase delayed phase'

theorem moves_backoff {i : Nat} {c c' : Counters Table} {e : Event Ctx} {phase phase' : Phase Pc}
    (moved : Moves (gate config) i c e phase c' phase') :
    Backoff config c.sub.delayedThreads phase c'.sub.delayedThreads phase' := by
  cases moved with
  | complete op call own limited => exact .other rfl rfl
  | advance advanced =>
    rename_i input made
    cases phase <;> simp only [Phase.advance, Option.some.injEq, Prod.mk.injEq, reduceCtorEq]
      at advanced <;> obtain ⟨rfl, rfl, rfl⟩ := advanced
    case acquiring pc =>
      exact .acquiring (operation_delays config c.limit c.toGauge pc.partitionIndex input.spurious
        pc.point)
    case rejecting => exact .rejecting
    case counting call => exact .other rfl (by split <;> rfl)
    all_goals exact .other rfl rfl

/-! ### The budget is not overdrawn -/

/-- The call has reserved a part of the budget and has not released it. -/
def delaying : Phase Pc → Bool
  | .acquiring ⟨_, .sleep⟩ | .acquiring ⟨_, .wake⟩ => true
  | _ => false

/-- The call is inside `sleep_fn_`; what it does next is the release. -/
def asleep : Phase Pc → Bool
  | .acquiring ⟨_, .wake⟩ => true
  | _ => false

/-- What the call has loaded leaves room in the budget. -/
def Affords (config : Config Ctx) : Phase Pc → Prop
  | .acquiring ⟨_, .exchangeDelayed current⟩ => current < config.maxDelayedThreads
  | _ => True

theorem delaying_of_outside {p : Nat} {point : Point} (outside : point.backsOff = false) :
    delaying (.acquiring ⟨p, point⟩) = false := by
  cases point <;> first | rfl | contradiction

theorem delaying_of_reserving {p : Nat} {point : Point} (reserving : point.reserving = true) :
    delaying (.acquiring ⟨p, point⟩) = false := by
  cases point <;> first | rfl | contradiction

theorem delaying_of_unconcerned {phase : Phase Pc} (outside : unconcerned phase = true) :
    delaying phase = false := by
  cases phase <;> first | rfl | contradiction

theorem backoff_delaying {delayed delayed' : Int} {phase phase' : Phase Pc}
    (backoff : Backoff config delayed phase delayed' phase') :
    delayed' + (if delaying phase then 1 else 0) = delayed + (if delaying phase' then 1 else 0) := by
  cases backoff with
  | acquiring delays =>
    cases delays with
    | reserve => simp [Pc.progress, Progress.phase, delaying]
    | sleep => rfl
    | release => simp [Pc.progress, Progress.phase, delaying]
    | exhausted reserving =>
      rw [delaying_of_reserving reserving]
      rfl
    | loaded reserving =>
      rw [delaying_of_reserving reserving]
      rfl
    | undelayed => rfl
    | rejected => rfl
    | elsewhere outside stays =>
      simp only [Pc.progress, Progress.phase, delaying_of_outside outside, delaying_of_outside stays]
    | admitted => rfl
  | rejecting => rfl
  | other before after => rw [delaying_of_unconcerned before, delaying_of_unconcerned after]

/-- `delayed_threads_` counts the calls between their reservation and its release. -/
theorem delayedThreads_eq
    (ran : run (step (limiter config bypass)) (initial config limit) es = some s) :
    s.sub.delayedThreads = s.requests.countP fun r => delaying r.phase := by
  refine conserved (fun c => c.sub.delayedThreads) rfl ?_
    (fun moved => backoff_delaying (moves_backoff moved)) ?_ ran
  · intro context
    rcases (limiter config bypass).enter_phase context with phase | phase <;> rw [phase] <;> rfl
  · rintro c c' ⟨_, same | ⟨value, stores, changed⟩⟩
    · rw [same]
    · rw [changed]
      rfl

theorem affords_of_outside {p : Nat} {point : Point} (outside : point.backsOff = false) :
    Affords config (.acquiring ⟨p, point⟩) := by
  cases point <;> trivial

theorem affords_of_unconcerned {phase : Phase Pc} (outside : unconcerned phase = true) :
    Affords config phase := by
  cases phase <;> trivial

theorem backoff_affords {delayed delayed' : Int} {phase phase' : Phase Pc}
    (backoff : Backoff config delayed phase delayed' phase') : Affords config phase' := by
  cases backoff with
  | acquiring delays =>
    cases delays with
    | loaded _ room => exact room
    | elsewhere _ stays => exact affords_of_outside stays
    | _ => trivial
  | rejecting => trivial
  | other _ after => exact affords_of_unconcerned after

theorem run_affords (ran : run (step (limiter config bypass)) (initial config limit) es = some s)
    {i : Nat} {r : Request Ctx Pc} (found : s.requests[i]? = some r) : Affords config r.phase := by
  refine forall_requests (Q := fun _ r => Affords config r.phase) ?_ ?_ ran found
  · intro i context
    rcases (limiter config bypass).enter_phase context with phase | phase <;> rw [phase] <;> trivial
  · intro i r c e c' phase _ moved
    exact backoff_affords (moves_backoff moved)

/-- A reservation that there was room for when it was made. -/
theorem backoff_within {delayed delayed' : Int} {phase phase' : Phase Pc}
    (affords : Affords config phase) (backoff : Backoff config delayed phase delayed' phase')
    (within : delayed ≤ config.maxDelayedThreads) : delayed' ≤ config.maxDelayedThreads := by
  cases backoff with
  | acquiring delays =>
    cases delays with
    | reserve =>
      have room : delayed < config.maxDelayedThreads := affords
      omega
    | release => omega
    | _ => exact within
  | rejecting => exact within
  | other => exact within

theorem delayedThreads_le (nonneg : 0 ≤ config.maxDelayedThreads)
    (ran : run (step (limiter config bypass)) (initial config limit) es = some s) :
    s.sub.delayedThreads ≤ config.maxDelayedThreads := by
  refine history (P := fun _ s => s.sub.delayedThreads ≤ config.maxDelayedThreads) nonneg ?_ ran
  intro es s e t before within stepped
  rcases step_cases (run_valid before) stepped with
    ⟨_, _, same, _⟩ | ⟨i, r, phase, here, moved, _⟩ | ⟨_, _, _, _, same | ⟨_, _, changed⟩⟩
  · rw [same]
    exact within
  · exact backoff_within (run_affords before here) (moves_backoff moved) within
  · rw [same]
    exact within
  · rw [changed]
    exact within

/-! ### Every delay is one's own, and none is left out without cause -/

/-- The delays a call passes to `sleep_fn_`, at the step with which it goes to sleep. -/
def sleeps (config : Config Ctx) (_ _ : Counters Table) : Phase Pc → List Int
  | .acquiring ⟨p, .wake⟩ => [config.rejectDelay p]
  | _ => []

/-- Every call's sleeps so far, in the order of the run. -/
def sleepLog (config : Config Ctx) (bypass : Ctx → Bool) (limit : Int) (es : List (Event Ctx)) :
    List (Nat × Int) :=
  log (limiter config bypass) limit (sleeps config) es

/-- The call is turned away. -/
def turnedAway : Phase Pc → Bool
  | .rejecting | .rejected => true
  | _ => false

/-- How the sleeps of a call of partition `p` and the point it has reached go together. -/
def Slept (config : Config Ctx) (p : Nat) : Phase Pc → List Int → Prop
  | .acquiring ⟨_, point⟩, slept => (point.backsOff = true → config.rejectDelay p ≠ 0) ∧
      slept = if point = .wake then [config.rejectDelay p] else []
  | .rejecting, slept | .rejected, slept =>
      slept = [] ∨ (slept = [config.rejectDelay p] ∧ config.rejectDelay p ≠ 0)
  | _, slept => slept = []

theorem slept_of_unconcerned {p : Nat} {phase : Phase Pc} (outside : unconcerned phase = true)
    {slept : List Int} : Slept config p phase slept ↔ slept = [] := by
  cases phase <;> first | exact Iff.rfl | contradiction

theorem sleeps_of_unconcerned {phase : Phase Pc} (outside : unconcerned phase = true)
    (c c' : Counters Table) : sleeps config c c' phase = [] := by
  cases phase <;> first | rfl | contradiction

theorem backsOff_of_reserving {point : Point} (reserving : point.reserving = true) :
    point.backsOff = true ∧ point ≠ .wake := by
  cases point <;> first | contradiction | exact ⟨rfl, by simp⟩

theorem ne_wake {point : Point} (outside : point.backsOff = false) : point ≠ .wake := by
  rintro rfl
  contradiction

theorem sleeps_of_ne_wake {p : Nat} {point : Point} (awake : point ≠ .wake) (c c' : Counters Table) :
    sleeps config c c' (.acquiring ⟨p, point⟩) = [] := by
  cases point <;> first | rfl | contradiction

/-- A call that moves on sleeps as the point it reaches says. -/
theorem backoff_slept {delayed delayed' : Int} {p : Nat} {phase phase' : Phase Pc} {slept : List Int}
    (routed : Routed p phase) (backoff : Backoff config delayed phase delayed' phase')
    (before : Slept config p phase slept) (c c' : Counters Table) :
    Slept config p phase' (slept ++ sleeps config c c' phase') := by
  cases backoff with
  | acquiring delays =>
    obtain ⟨nonzero, sofar⟩ := before
    obtain rfl := routed
    cases delays with
    | reserve => exact ⟨fun _ => nonzero rfl, by simp [sofar, sleeps, Pc.progress, Progress.phase]⟩
    | sleep => exact ⟨fun _ => nonzero rfl, by simp [sofar, sleeps, Pc.progress, Progress.phase]⟩
    | release => exact .inr ⟨by simp [sofar, sleeps, Pc.progress, Progress.phase], nonzero rfl⟩
    | exhausted reserving =>
      obtain ⟨_, awake⟩ := backsOff_of_reserving reserving
      exact .inl (by simp [sofar, awake, sleeps, Pc.progress, Progress.phase])
    | loaded reserving =>
      obtain ⟨inside, awake⟩ := backsOff_of_reserving reserving
      exact ⟨fun _ => nonzero inside,
        by simp [sofar, awake, sleeps, Pc.progress, Progress.phase]⟩
    | undelayed => exact .inl (by simp [sofar, sleeps, Pc.progress, Progress.phase])
    | rejected delayed =>
      exact ⟨fun _ => delayed, by simp [sofar, sleeps, Pc.progress, Progress.phase]⟩
    | elsewhere outside stays =>
      refine ⟨fun inside => absurd inside (by simp [stays]), ?_⟩
      simp [sofar, ne_wake outside, ne_wake stays, sleeps_of_ne_wake (ne_wake stays), Pc.progress,
        Progress.phase]
    | admitted => simp [Slept, sofar, sleeps, Pc.progress, Progress.phase]
  | rejecting => simpa [Slept, sleeps] using before
  | other outside after =>
    rw [slept_of_unconcerned outside] at before
    rw [slept_of_unconcerned after, before, sleeps_of_unconcerned after]
    rfl

theorem run_slept (ran : run (step (limiter config bypass)) (initial config limit) es = some s) :
    Credited (fun r slept => Slept config (config.resolvePartition r.context) r.phase slept)
      (sleepLog config bypass limit es) s := by
  refine run_credited ?_ ?_ ?_ ran
  · intro context
    rcases (limiter config bypass).enter_phase context with phase | phase <;> rw [phase]
    · exact rfl
    · exact ⟨by simp [limiter, gate, Point.backsOff], by simp [limiter, gate]⟩
  · intro before s i r input c phase made seen _ ran found advanced slept
    exact backoff_slept (run_routed ran found) (moves_backoff (.advance (i := i) advanced)) slept _ _
  · intro r call seen atHeld slept
    rw [atHeld] at slept
    exact slept

/-- At some moment of call `i` the budget was exhausted. -/
def Exhausted (config : Config Ctx) (bypass : Ctx → Bool) (limit : Int) (es : List (Event Ctx))
    (i : Nat) : Prop :=
  ∃ u r pc, Visits (step (limiter config bypass)) (initial config limit) es u ∧
    u.requests[i]? = some r ∧ r.phase = .acquiring pc ∧
    config.maxDelayedThreads ≤ u.sub.delayedThreads

theorem turnedAway_of_outside {phase : Phase Pc} (outside : unconcerned phase = true) :
    turnedAway phase = false := by
  cases phase <;> first | rfl | contradiction

/-- A call is turned away after a sleep, by an exhausted budget, or if it has no delay. -/
theorem backoff_turnedAway {delayed delayed' : Int} {phase phase' : Phase Pc}
    (backoff : Backoff config delayed phase delayed' phase') (turned : turnedAway phase' = true) :
    turnedAway phase = true ∨ asleep phase = true ∨ ∃ pc, phase = .acquiring pc ∧
      (config.maxDelayedThreads ≤ delayed ∨ config.rejectDelay pc.partitionIndex = 0) := by
  cases backoff with
  | acquiring delays =>
    cases delays with
    | release => exact .inr (.inl rfl)
    | exhausted _ full => exact .inr (.inr ⟨_, rfl, .inl full⟩)
    | undelayed zero => exact .inr (.inr ⟨_, rfl, .inr zero⟩)
    | _ => contradiction
  | rejecting => exact .inl rfl
  | other _ after =>
    rw [turnedAway_of_outside after] at turned
    contradiction

theorem asleep_eq {phase : Phase Pc} (asleep : asleep phase = true) :
    ∃ p, phase = .acquiring ⟨p, .wake⟩ := by
  cases phase with
  | acquiring pc =>
    obtain ⟨p, point⟩ := pc
    cases point with
    | wake => exact ⟨p, rfl⟩
    | _ => contradiction
  | _ => contradiction

theorem slept_of_asleep {p : Nat} {phase : Phase Pc} {slept : List Int} (asleep : asleep phase = true)
    (before : Slept config p phase slept) : slept ≠ [] := by
  obtain ⟨q, rfl⟩ := asleep_eq asleep
  obtain ⟨_, sofar⟩ := before
  simp [sofar]

theorem run_exhausted (ran : run (step (limiter config bypass)) (initial config limit) es = some s)
    {i : Nat} {r : Request Ctx Pc} (found : s.requests[i]? = some r)
    (turned : turnedAway r.phase = true)
    (delayed : config.rejectDelay (config.resolvePartition r.context) ≠ 0) :
    about i (sleepLog config bypass limit es) ≠ [] ∨ Exhausted config bypass limit es i := by
  refine history (P := fun es s => ∀ i r, s.requests[i]? = some r → turnedAway r.phase = true →
    config.rejectDelay (config.resolvePartition r.context) ≠ 0 →
    about i (sleepLog config bypass limit es) ≠ [] ∨ Exhausted config bypass limit es i)
    (by simp [initial, start]) ?_ ran i r found turned delayed
  intro es s e t before all stepped j r found turned delayed
  -- What a call has slept and what it has witnessed stay with it.
  have later (cause : about j (sleepLog config bypass limit es) ≠ [] ∨
      Exhausted config bypass limit es j) :
      about j (sleepLog config bypass limit (es ++ [e])) ≠ [] ∨
        Exhausted config bypass limit (es ++ [e]) j := by
    rcases cause with slept | ⟨u, r, pc, visits, there, inside, full⟩
    · refine .inl fun none => slept ?_
      rw [sleepLog, log_concat before stepped, about_append, List.append_eq_nil_iff] at none
      exact none.1
    · exact .inr ⟨u, r, pc, visits.append [e], there, inside, full⟩
  rcases step_cases (run_valid before) stepped with
    ⟨context, _, _, requests⟩ | ⟨i, r', phase, here, moved, requests⟩ | ⟨_, _, requests, _⟩
  · rw [requests] at found
    rcases Pool.getElem?_concat_eq_some.mp found with old | ⟨_, rfl⟩
    · exact later (all j r old turned delayed)
    · rcases (limiter config bypass).enter_phase context with phase | phase <;>
        rw [phase] at turned <;> contradiction
  · rw [requests] at found
    rcases Pool.getElem?_modify_cases here found with ⟨rfl, rfl⟩ | ⟨_, old⟩
    · apply later
      rcases backoff_turnedAway (moves_backoff moved) turned with
        still | asleep | ⟨pc, inside, full | zero⟩
      · exact all j r' here still delayed
      · exact .inl (slept_of_asleep asleep ((run_slept before).each j r' here))
      · exact .inr ⟨s, r', pc, visits_last before, here, inside, full⟩
      · have routed := run_routed before here
        rw [inside] at routed
        have partition : pc.partitionIndex = config.resolvePartition r'.context := routed
        rw [partition] at zero
        exact absurd zero delayed
    · exact later (all j r old turned delayed)
  · rw [requests] at found
    exact later (all j r found turned delayed)

/-- The budget of a state reached by a run. -/
structure Budgeted (config : Config Ctx) (bypass : Ctx → Bool) (limit : Int)
    (es : List (Event Ctx)) (s : State Ctx Table Pc) : Prop where
  counted : s.sub.delayedThreads = s.requests.countP fun r => delaying r.phase
  within : s.requests.countP (fun r => asleep r.phase) ≤ config.maxDelayedThreads
  zero : (∀ r ∈ s.requests, delaying r.phase = false) → s.sub.delayedThreads = 0
  /-- A call sleeps once at most, with the delay of its own partition, and then it is turned
  away. -/
  own : ∀ (i : Nat) r, s.requests[i]? = some r →
    about i (sleepLog config bypass limit es) = [] ∨
      (about i (sleepLog config bypass limit es) =
          [config.rejectDelay (config.resolvePartition r.context)] ∧
        config.rejectDelay (config.resolvePartition r.context) ≠ 0 ∧
        (asleep r.phase = true ∨ turnedAway r.phase = true))
  /-- A call of a partition with a delay is turned away without one only if the budget was
  exhausted in the meantime. -/
  excused : ∀ (i : Nat) r, s.requests[i]? = some r → turnedAway r.phase = true →
    config.rejectDelay (config.resolvePartition r.context) ≠ 0 →
    about i (sleepLog config bypass limit es) = [] → Exhausted config bypass limit es i

theorem Slept.own {p : Nat} {phase : Phase Pc} {slept : List Int}
    (before : Slept config p phase slept) :
    slept = [] ∨ (slept = [config.rejectDelay p] ∧ config.rejectDelay p ≠ 0 ∧
      (asleep phase = true ∨ turnedAway phase = true)) := by
  cases phase with
  | acquiring pc =>
    obtain ⟨q, point⟩ := pc
    obtain ⟨nonzero, sofar⟩ := before
    by_cases awake : point = .wake
    · subst awake
      exact .inr ⟨sofar, nonzero rfl, .inl rfl⟩
    · rw [if_neg awake] at sofar
      exact .inl sofar
  | rejecting | rejected =>
    rcases before with none | ⟨sofar, nonzero⟩
    · exact .inl none
    · exact .inr ⟨sofar, nonzero, .inr rfl⟩
  | _ => exact .inl before

/-- However the calls, their retries and their releases interleave, the budget is kept. -/
theorem reject_delay_budgeted (nonneg : 0 ≤ config.maxDelayedThreads)
    (ran : run (step (limiter config bypass)) (initial config limit) es = some s) :
    Budgeted config bypass limit es s := by
  have counted := delayedThreads_eq ran
  constructor
  · exact counted
  · have fewer : s.requests.countP (fun r => asleep r.phase) ≤
        s.requests.countP (fun r => delaying r.phase) := by
      apply List.countP_mono_left
      intro r _ asleep
      obtain ⟨p, phase⟩ := asleep_eq asleep
      rw [phase]
      rfl
    have within := delayedThreads_le nonneg ran
    omega
  · intro none
    rw [counted, List.countP_eq_zero.mpr (by simpa using none)]
    rfl
  · intro i r found
    exact ((run_slept ran).each i r found).own
  · intro i r found turned delayed awake
    exact (run_exhausted ran found turned delayed).resolve_left (not_not_intro awake)

/-- One partition, a delay of fifty, and room for one delayed thread. -/
def slowGold : Config String := .build [⟨"gold", .rat 1, 50⟩] [fun context => some context] 1 0

/-- The first call takes the only slot. The second one goes to sleep, after an exchange that fails
for no reason, and the third finds the budget exhausted. -/
def threeGolds : List (Event String) :=
  [.tryAcquire "gold", .advance 0 {}, .advance 0 {}, .advance 0 {}, .advance 0 {}, .advance 0 {},
    .tryAcquire "gold", .advance 1 {}, .advance 1 {}, .advance 1 {}, .advance 1 {}, .advance 1 {},
    .advance 1 { spurious := true }, .advance 1 {}, .advance 1 {},
    .tryAcquire "gold", .advance 2 {}, .advance 2 {}, .advance 2 {}, .advance 2 {}, .advance 2 {},
    .advance 2 {}]

theorem threeGolds_budgeted : ∃ s,
    run (step (limiter slowGold fun _ => false)) (initial slowGold 1) threeGolds = some s ∧
    s.sub.delayedThreads = 1 ∧ about 1 (sleepLog slowGold (fun _ => false) 1 threeGolds) = [50] ∧
    Exhausted slowGold (fun _ => false) 1 threeGolds 2 := by
  have ended : (run (step (limiter slowGold fun _ => false)) (initial slowGold 1) threeGolds).map
      (fun s => (s.sub.delayedThreads, s.requests[2]?)) =
        some (1, some ⟨"gold", .rejected⟩) := by decide +kernel
  have logged : sleepLog slowGold (fun _ => false) 1 threeGolds = [(1, 50)] := by decide +kernel
  obtain ⟨s, ran, seen⟩ := Option.map_eq_some_iff.mp ended
  obtain ⟨delayed, third⟩ := Prod.mk.inj seen
  have budgeted : Budgeted slowGold (fun _ => false) 1 threeGolds s :=
    reject_delay_budgeted (by decide) ran
  refine ⟨s, ran, delayed, by rw [logged]; rfl, budgeted.excused 2 _ third rfl (by decide +kernel) ?_⟩
  rw [logged]
  rfl
end Limen.AbstractPartitionedLimiter
