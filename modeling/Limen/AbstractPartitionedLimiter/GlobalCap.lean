import Limen.AbstractPartitionedLimiter.Conservation

/-! The global cap when calls and completions run one at a time. The quota gate is tried
exactly when the cap is reached, and it does not look at the cap again. -/
namespace Limen.AbstractPartitionedLimiter
open AbstractLimiter AbstractLimiter.State Transition
variable {Ctx : Type} {config : Config Ctx} {bypass : Ctx → Bool} {cap : Int}
  {es : List (Event Ctx)} {s t : State Ctx Table Pc}

/-- Each call and each completion runs to its end before the next begins, and the cap is
fixed. -/
def OneAtATime (s : State Ctx Table Pc) : Event Ctx → Prop
  | .tryAcquire _ | .guard _ => s.Settled
  | .advance _ _ => True
  | .setLimit _ | .notify => False

instance (s : State Ctx Table Pc) : (e : Event Ctx) → Decidable (OneAtATime s e)
  | .tryAcquire _ | .guard _ => inferInstanceAs (Decidable (∀ r ∈ s.requests, r.phase.settled))
  | .advance _ _ => .isTrue trivial
  | .setLimit _ | .notify => .isFalse id

/-- The call, unless it is bypassed, finds capacity below the cap or its own partition at
its quota. -/
def QuotaTaken (config : Config Ctx) (bypass : Ctx → Bool) (cap : Int)
    (s : State Ctx Table Pc) : Event Ctx → Prop
  | .tryAcquire context => bypass context = false → cap ≤ s.inflight →
    s.sub.limit (config.resolvePartition context) ≤ s.sub.busy (config.resolvePartition context)
  | _ => True

instance (s : State Ctx Table Pc) : (e : Event Ctx) → Decidable (QuotaTaken config bypass cap s e)
  | .tryAcquire _ => inferInstanceAs (Decidable (_ = _ → _ ≤ _ → _ ≤ _))
  | .advance _ _ | .guard _ | .setLimit _ | .notify => .isTrue trivial

/-- No two calls are in progress. -/
def Alone (s : State Ctx Table Pc) : Prop :=
  ∀ (i j : Nat) r r', s.requests[i]? = some r → s.requests[j]? = some r' →
    ¬ r.phase.settled → ¬ r'.phase.settled → i = j

theorem advance_unsettled {gate : Gate Ctx Table Pc} {c c' : Counters Table} {input : Input}
    {phase phase' : Phase Pc} {made : Option (Slot Unit)}
    (advanced : phase.advance gate c input = some (c', phase', made)) : ¬ phase.settled := by
  cases phase <;> simp [Phase.advance, Phase.settled] at advanced ⊢

theorem alone_step {e : Event Ctx} (valid : s.Valid) (alone : Alone s) (admitted : OneAtATime s e)
    (stepped : s.step (limiter config bypass) e = some t) : Alone t := by
  intro i j r r' found found' busy busy'
  rcases step_cases valid stepped with
    ⟨context, rfl, _, requests⟩ | ⟨k, r'', phase, here, moved, requests⟩ | ⟨_, _, requests, _⟩
  · rw [requests] at found found'
    have settled : s.Settled := admitted
    rcases Pool.getElem?_concat_eq_some.mp found with old | ⟨rfl, _⟩
    · exact absurd (settled r (List.mem_of_getElem? old)) busy
    rcases Pool.getElem?_concat_eq_some.mp found' with old | ⟨rfl, _⟩
    · exact absurd (settled r' (List.mem_of_getElem? old)) busy'
    · rfl
  · have others (m : Nat) (q : Request Ctx Pc) (old : s.requests[m]? = some q)
        (unsettled : ¬ q.phase.settled) : m = k := by
      rcases moved.cases with ⟨input, made, rfl, advanced⟩ | ⟨op, call, rfl, _⟩
      · exact alone m k q r'' old here unsettled (advance_unsettled advanced)
      · exact absurd (admitted q (List.mem_of_getElem? old)) unsettled
    have only (m : Nat) (q : Request Ctx Pc) (new : t.requests[m]? = some q)
        (unsettled : ¬ q.phase.settled) : m = k := by
      rw [requests] at new
      rcases Pool.getElem?_modify_cases here new with ⟨rfl, _⟩ | ⟨_, old⟩
      · rfl
      · exact others m q old unsettled
    rw [only i r found busy, only j r' found' busy']
  · rw [requests] at found found'
    exact alone i j r r' found found' busy busy'

/-- What holds in every state when calls run one at a time. -/
structure Undisturbed (cap : Int) (s : State Ctx Table Pc) : Prop where
  fixed : s.limit = cap
  alone : Alone s

theorem undisturbed_step {e : Event Ctx} (valid : s.Valid) (undisturbed : Undisturbed cap s)
    (admitted : OneAtATime s e) (stepped : s.step (limiter config bypass) e = some t) :
    Undisturbed cap t := by
  refine ⟨?_, alone_step valid undisturbed.alone admitted stepped⟩
  cases e with
  | tryAcquire context =>
    cases stepped
    exact undisturbed.fixed
  | advance i input =>
    obtain ⟨r, c, phase, made, heap, _, advanced, _, rfl⟩ := step_advance stepped
    exact (advance_limit advanced).trans undisturbed.fixed
  | guard op =>
    obtain ⟨heap, completion, _, rfl⟩ := step_guard stepped
    exact undisturbed.fixed
  | setLimit value => exact absurd admitted id
  | notify => exact absurd admitted id

theorem start_undisturbed (config : Config Ctx) (cap : Int) :
    Undisturbed cap (initial config cap) :=
  ⟨rfl, by simp [Alone, initial, start]⟩

/-- What keeps a call in progress from passing the cap. -/
def Confined (cap : Int) (c : Counters Table) : Phase Pc → Prop
  | .acquiring ⟨p, .loadInflight⟩ => cap ≤ c.inflight → c.sub.limit p ≤ c.sub.busy p
  | .acquiring ⟨p, .loadLimit inflight⟩ =>
    inflight = c.inflight ∧ (cap ≤ c.inflight → c.sub.limit p ≤ c.sub.busy p)
  | .acquiring ⟨p, .loadBusy⟩ => c.sub.limit p ≤ c.sub.busy p
  | .acquiring ⟨p, .loadQuota current⟩ => c.sub.limit p ≤ current
  | .acquiring ⟨_, .exchange _⟩ => False
  | .acquiring ⟨_, .burst⟩ | .acquiring ⟨_, .reserve⟩ => c.inflight < cap
  | _ => True

theorem confined_of_settled {c : Counters Table} {phase : Phase Pc} (settled : phase.settled) :
    Confined cap c phase := by
  cases phase with
  | acquiring pc => simp [Phase.settled] at settled
  | _ => trivial

theorem confined_backoff {c : Counters Table} (p : Nat) (current : Int) :
    Confined cap c (Pc.progress p (config.backoff current)).phase := by
  rw [Config.backoff]
  by_cases room : current < config.maxDelayedThreads
  · rw [if_pos room]
    trivial
  · rw [if_neg room]
    trivial

theorem confined_advance {c c' : Counters Table} {input : Input} {phase phase' : Phase Pc}
    {made : Option (Slot Unit)} (fixed : c.limit = cap) (within : c.inflight ≤ cap)
    (confined : Confined cap c phase)
    (advanced : phase.advance (gate config) c input = some (c', phase', made)) :
    c'.inflight ≤ cap ∧ Confined cap c' phase' := by
  cases phase <;> simp only [Phase.advance, Option.some.injEq, Prod.mk.injEq, reduceCtorEq]
    at advanced <;> obtain ⟨rfl, rfl, rfl⟩ := advanced
  case acquiring pc =>
    obtain ⟨p, point⟩ := pc
    cases point <;>
      simp only [gate, doAcquire, Config.operation, Pc.progress, Progress.phase, Confined]
        at confined ⊢
    case loadInflight => exact ⟨within, trivial, confined⟩
    case loadLimit inflight =>
      obtain ⟨rfl, full⟩ := confined
      by_cases reached : c.inflight ≥ c.limit
      · rw [if_pos reached]
        exact ⟨within, full (fixed ▸ reached)⟩
      · rw [if_neg reached]
        rw [fixed, ge_iff_le, not_le] at reached
        exact ⟨within, reached⟩
    case burst => exact ⟨within, confined⟩
    case loadBusy => exact ⟨within, confined⟩
    case loadQuota current =>
      by_cases immediate : config.rejectDelay p = 0
      · simp only [ge_iff_le, confined, immediate, if_true]
        exact ⟨within, trivial⟩
      · simp only [ge_iff_le, confined, immediate, if_true, if_false]
        exact ⟨within, trivial⟩
    case reserve => exact ⟨confined, trivial⟩
    case loadDelayed => exact ⟨within, confined_backoff p _⟩
    case exchangeDelayed current =>
      by_cases reserved : c.sub.delayedThreads = current ∧ ¬ input.spurious
      · rw [if_pos reserved]
        exact ⟨within, trivial⟩
      · rw [if_neg reserved]
        exact ⟨within, confined_backoff p _⟩
    case sleep => exact ⟨within, trivial⟩
    case wake => exact ⟨within, trivial⟩
  case decrementing call =>
    refine ⟨?_, trivial⟩
    dsimp only
    omega
  case counting call =>
    refine ⟨within, ?_⟩
    split <;> trivial
  all_goals exact ⟨within, trivial⟩

/-- The invariant of a run in which every call finds capacity or its quota taken. -/
structure Orderly (cap : Int) (s : State Ctx Table Pc) : Prop extends Undisturbed cap s where
  within : s.inflight ≤ cap
  confined : ∀ (i : Nat) r, s.requests[i]? = some r → Confined cap s.toCounters r.phase

theorem confined_enter {context : Ctx}
    (taken : QuotaTaken config bypass cap s (.tryAcquire context)) :
    Confined cap s.toCounters ((limiter config bypass).enter context).phase := by
  rcases bypassed : bypass context with _ | _
  · have phase : ((limiter config bypass).enter context).phase =
        .acquiring ⟨config.resolvePartition context, .loadInflight⟩ := by
      simp [Limiter.enter, limiter, gate, bypassed]
    rw [phase]
    exact taken bypassed
  · have phase : ((limiter config bypass).enter context).phase = .bypassing := by
      simp [Limiter.enter, limiter, bypassed]
    rw [phase]
    trivial

theorem orderly_step {e : Event Ctx} (valid : s.Valid) (orderly : Orderly cap s)
    (admitted : OneAtATime s e ∧ QuotaTaken config bypass cap s e)
    (stepped : s.step (limiter config bypass) e = some t) : Orderly cap t := by
  have undisturbed := undisturbed_step valid orderly.toUndisturbed admitted.1 stepped
  suffices rest : t.inflight ≤ cap ∧
      ∀ (i : Nat) r, t.requests[i]? = some r → Confined cap t.toCounters r.phase from
    ⟨undisturbed, rest.1, rest.2⟩
  rcases step_cases valid stepped with
    ⟨context, rfl, same, requests⟩ | ⟨k, r, phase, here, moved, requests⟩ |
      ⟨notAdvance, notAcquire, requests, _⟩
  · refine ⟨by rw [same]; exact orderly.within, ?_⟩
    intro i r found
    rw [requests] at found
    rw [same]
    rcases Pool.getElem?_concat_eq_some.mp found with old | ⟨_, rfl⟩
    · exact orderly.confined i r old
    · exact confined_enter admitted.2
  · rcases moved.cases with ⟨input, made, rfl, advanced⟩ | ⟨op, call, rfl, _, _, same, rfl⟩
    · obtain ⟨within, confined⟩ := confined_advance orderly.fixed orderly.within
        (orderly.confined k r here) advanced
      refine ⟨within, ?_⟩
      intro i r' found
      rw [requests] at found
      rcases Pool.getElem?_modify_cases here found with ⟨rfl, rfl⟩ | ⟨other, old⟩
      · exact confined
      · -- Another call has returned, so nothing is asked of it.
        refine confined_of_settled (Classical.byContradiction fun unsettled => other ?_)
        exact orderly.alone i k r' r old here unsettled (advance_unsettled advanced)
    · refine ⟨by rw [same]; exact orderly.within, ?_⟩
      intro i r' found
      rw [requests] at found
      rw [same]
      rcases Pool.getElem?_modify_cases here found with ⟨rfl, rfl⟩ | ⟨_, old⟩
      · trivial
      · exact orderly.confined i r' old
  · cases e with
    | guard op =>
      have same : t.toCounters = s.toCounters := by
        obtain ⟨heap, completion, _, rfl⟩ := step_guard stepped
        rfl
      refine ⟨by rw [same]; exact orderly.within, ?_⟩
      intro i r found
      rw [requests] at found
      rw [same]
      exact orderly.confined i r found
    | tryAcquire context => exact absurd rfl (notAcquire context)
    | advance i input => exact absurd rfl (notAdvance i input)
    | setLimit value => exact absurd admitted.1 id
    | notify => exact absurd admitted.1 id

theorem run_undisturbed
    (ran : run (step (limiter config bypass)) (initial config cap) es = some s)
    (along : Along (step (limiter config bypass)) OneAtATime (initial config cap) es) :
    Undisturbed cap s := by
  suffices both : s.Valid ∧ Undisturbed cap s from both.2
  refine invariant_along (P := fun s => s.Valid ∧ Undisturbed cap s) ?_ ran along
    ⟨start_valid _ _, start_undisturbed config cap⟩
  rintro s e t ⟨valid, undisturbed⟩ admitted stepped
  exact ⟨valid_step valid stepped, undisturbed_step valid undisturbed admitted stepped⟩

theorem run_orderly (positive : 1 ≤ cap)
    (ran : run (step (limiter config bypass)) (initial config cap) es = some s)
    (along : Along (step (limiter config bypass))
      (fun s e => OneAtATime s e ∧ QuotaTaken config bypass cap s e) (initial config cap) es) :
    Orderly cap s := by
  suffices both : s.Valid ∧ Orderly cap s from both.2
  refine invariant_along (P := fun s => s.Valid ∧ Orderly cap s) ?_ ran along
    ⟨start_valid _ _, start_undisturbed config cap, ?_, by simp [initial, start]⟩
  · rintro s e t ⟨valid, orderly⟩ admitted stepped
    exact ⟨valid_step valid stepped, orderly_step valid orderly admitted stepped⟩
  · exact Int.le_of_lt (Int.lt_of_lt_of_le Int.zero_lt_one positive)

/-- A call on partition `p` that the quota gate will admit. -/
def Heading (cap : Int) (c : Counters Table) (p : Nat) : Point → Prop
  | .loadInflight | .loadBusy | .exchange _ => c.sub.busy p < c.sub.limit p
  | .loadLimit inflight => cap ≤ inflight ∧ c.sub.busy p < c.sub.limit p
  | .loadQuota current => current < c.sub.limit p ∧ c.sub.busy p < c.sub.limit p
  | .reserve => True
  | _ => False

theorem heading_advance {c c' : Counters Table} {input : Input} {p : Nat} {point : Point}
    {phase : Phase Pc} {made : Option (Slot Unit)} (fixed : c.limit = cap)
    (reached : cap ≤ c.inflight) (heading : Heading cap c p point)
    (advanced : (Phase.acquiring ⟨p, point⟩).advance (gate config) c input =
      some (c', phase, made)) :
    cap < c'.inflight ∨
      cap ≤ c'.inflight ∧ ∃ next, phase = .acquiring ⟨p, next⟩ ∧ Heading cap c' p next := by
  simp only [Phase.advance, Option.some.injEq, Prod.mk.injEq] at advanced
  obtain ⟨rfl, rfl, rfl⟩ := advanced
  cases point <;>
    simp only [gate, doAcquire, Config.operation, Pc.progress, Progress.phase] at heading ⊢
  case loadInflight => exact .inr ⟨reached, _, rfl, reached, heading⟩
  case loadLimit inflight =>
    obtain ⟨loaded, free⟩ := heading
    rw [fixed, if_pos loaded]
    exact .inr ⟨reached, _, rfl, free⟩
  case loadBusy => exact .inr ⟨reached, _, rfl, heading, heading⟩
  case loadQuota current =>
    obtain ⟨below, free⟩ := heading
    rw [if_neg (by omega)]
    exact .inr ⟨reached, _, rfl, free⟩
  case exchange current =>
    by_cases swapped : c.sub.busy p = current ∧ ¬ input.spurious
    · rw [if_pos swapped]
      exact .inr ⟨reached, _, rfl, trivial⟩
    · rw [if_neg swapped]
      exact .inr ⟨reached, _, rfl, heading, heading⟩
  case reserve => exact .inl (by omega)
  all_goals exact absurd heading id

/-- Once such a call runs undisturbed to its end, the counter has passed the cap. -/
theorem heading_run {i p : Nat} {r : Request Ctx Pc} {point : Point} (valid : s.Valid)
    (undisturbed : Undisturbed cap s) (reached : cap ≤ s.inflight)
    (found : s.requests[i]? = some r) (atPoint : r.phase = .acquiring ⟨p, point⟩)
    (heading : Heading cap s.toCounters p point)
    (along : Along (step (limiter config bypass)) OneAtATime s es)
    (ran : run (step (limiter config bypass)) s es = some t) (finished : t.Settled) :
    ∃ u, Visits (step (limiter config bypass)) s es u ∧ cap < u.inflight := by
  have unsettled : ¬ r.phase.settled := by
    rw [atPoint]
    simp [Phase.settled]
  induction es generalizing s r point with
  | nil =>
    cases ran
    exact absurd (finished r (List.mem_of_getElem? found)) unsettled
  | cons e es ih =>
    obtain ⟨middle, first, rest⟩ := run_cons_eq_some.mp ran
    obtain ⟨admitted, later⟩ := along
    cases e with
    | tryAcquire context => exact absurd (admitted r (List.mem_of_getElem? found)) unsettled
    | guard op => exact absurd (admitted r (List.mem_of_getElem? found)) unsettled
    | setLimit value => exact absurd admitted id
    | notify => exact absurd admitted id
    | advance j input =>
      obtain ⟨r', c, phase, made, heap, found', advanced, _, rfl⟩ := step_advance first
      obtain rfl : j = i :=
        undisturbed.alone j i r' r found' found (advance_unsettled advanced) unsettled
      obtain rfl : r = r' := by simpa [found] using found'
      rw [atPoint] at advanced
      have moved := Pool.getElem?_modify_self (Request.moveTo phase) found
      rcases heading_advance undisturbed.fixed reached heading advanced with
        passed | ⟨still, next, rfl, on⟩
      · exact ⟨_, ⟨[.advance j input], es, rfl, run_cons_eq_some.mpr ⟨_, first, rfl⟩⟩, passed⟩
      · obtain ⟨u, ⟨before, after, rfl, reaches⟩, passed⟩ := ih (valid_step valid first)
          (undisturbed_step valid undisturbed admitted first) still moved rfl on (later _ first)
          rest (by simp [Request.moveTo, Phase.settled])
        exact ⟨u, ⟨_ :: before, after, rfl, run_cons_eq_some.mpr ⟨_, first, reaches⟩⟩, passed⟩

/-- When calls and completions run one at a time over a fixed cap, the in-flight counter
stays within the cap exactly when no call is made that finds the cap reached and its own
partition below its quota: such a call is admitted all the same. -/
theorem within_cap_iff (positive : 1 ≤ cap)
    (ran : run (step (limiter config bypass)) (initial config cap) es = some s)
    (sequential : Along (step (limiter config bypass)) OneAtATime (initial config cap) es)
    (finished : s.Settled) :
    (∀ u, Visits (step (limiter config bypass)) (initial config cap) es u → u.inflight ≤ cap) ↔
      Along (step (limiter config bypass)) (QuotaTaken config bypass cap)
        (initial config cap) es := by
  constructor
  · intro within
    rw [along_iff]
    rintro before e after u rfl toCall
    cases e with
    | tryAcquire context =>
      intro limited reached
      by_contra free
      obtain ⟨u', toCall', fromCall⟩ := run_append_eq_some.mp ran
      obtain rfl : u = u' := by simpa [toCall] using toCall'
      obtain ⟨entered, enters, rest⟩ := run_cons_eq_some.mp fromCall
      have valid : u.Valid := run_valid toCall
      have undisturbed := run_undisturbed toCall sequential.left
      have onward := sequential.right toCall
      have found : entered.requests[u.requests.length]? =
          some ((limiter config bypass).enter context) := by
        cases enters
        exact Pool.getElem?_concat_eq_some.mpr (.inr ⟨rfl, rfl⟩)
      have atEntry : ((limiter config bypass).enter context).phase =
          .acquiring ⟨config.resolvePartition context, .loadInflight⟩ := by
        simp [Limiter.enter, limiter, gate, limited]
      have same : entered.toCounters = u.toCounters := by
        cases enters
        rfl
      obtain ⟨v, ⟨first, last, rfl, reaches⟩, passed⟩ := heading_run (valid_step valid enters)
        (undisturbed_step valid undisturbed onward.1 enters) (by rw [same]; exact reached) found
        atEntry (by rw [same]; exact Int.not_le.mp free) (onward.2 _ enters) rest finished
      refine absurd (within v ⟨before ++ .tryAcquire context :: first, last, by simp, ?_⟩)
        (Int.not_le.mpr passed)
      exact run_append_eq_some.mpr ⟨u, toCall, run_cons_eq_some.mpr ⟨entered, enters, reaches⟩⟩
    | _ => trivial
  · rintro taken u ⟨before, after, rfl, reaches⟩
    exact (run_orderly positive reaches (sequential.left.and taken.left)).within

/-- One partition takes the only slot; its second call is turned away at its quota. -/
def sameHalf : List (Event String) :=
  [.tryAcquire "gold", .advance 0 {}, .advance 0 {}, .advance 0 {}, .advance 0 {}, .advance 0 {},
    .tryAcquire "gold", .advance 1 {}, .advance 1 {}, .advance 1 {}, .advance 1 {}, .advance 1 {}]

theorem sameHalf_within_cap : ∃ s,
    run (step (limiter twoHalves fun _ => false)) (initial twoHalves 1) sameHalf = some s ∧
    Along (step (limiter twoHalves fun _ => false)) OneAtATime (initial twoHalves 1) sameHalf ∧
    s.Settled ∧ ∀ u, Visits (step (limiter twoHalves fun _ => false)) (initial twoHalves 1)
      sameHalf u → u.inflight ≤ 1 := by
  have ended : (run (step (limiter twoHalves fun _ => false)) (initial twoHalves 1) sameHalf).map
      (fun s => s.requests.all fun r => r.phase.settled) = some true := by decide +kernel
  obtain ⟨s, ran, all⟩ := Option.map_eq_some_iff.mp ended
  have settled : s.Settled := fun r member => List.all_eq_true.mp all r member
  have sequential : Along (step (limiter twoHalves fun _ => false)) OneAtATime
      (initial twoHalves 1) sameHalf := by decide +kernel
  have taken : Along (step (limiter twoHalves fun _ => false))
      (QuotaTaken twoHalves (fun _ => false) 1) (initial twoHalves 1) sameHalf := by decide +kernel
  exact ⟨s, ran, sequential, settled,
    (within_cap_iff (by decide) ran sequential settled).mpr taken⟩

/-- One partition takes the only slot, and the other is admitted on its quota. -/
def otherHalf : List (Event String) :=
  [.tryAcquire "gold", .advance 0 {}, .advance 0 {}, .advance 0 {}, .advance 0 {}, .advance 0 {},
    .tryAcquire "silver", .advance 1 {}, .advance 1 {}, .advance 1 {}, .advance 1 {},
    .advance 1 {}, .advance 1 {}, .advance 1 { addr := 1 }]

theorem otherHalf_passes_cap :
    ¬ ∀ s, Along (step (limiter twoHalves fun _ => false)) OneAtATime (initial twoHalves 1)
        otherHalf →
      run (step (limiter twoHalves fun _ => false)) (initial twoHalves 1) otherHalf = some s →
      s.inflight ≤ 1 := by
  intro confined
  have sequential : Along (step (limiter twoHalves fun _ => false)) OneAtATime
      (initial twoHalves 1) otherHalf := by decide +kernel
  have ended : (run (step (limiter twoHalves fun _ => false)) (initial twoHalves 1) otherHalf).map
      (fun s => s.inflight) = some 2 := by decide +kernel
  obtain ⟨s, ran, inflight⟩ := Option.map_eq_some_iff.mp ended
  have within := confined s sequential ran
  omega
end Limen.AbstractPartitionedLimiter
