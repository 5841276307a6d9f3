import Limen.AbstractPartitionedLimiter.Builder
import Limen.AbstractPartitionedLimiter.GlobalCap
import Limen.AbstractPartitionedLimiter.Isolation

/-! How far the global cap can be passed when calls and completions run one at a time. A
burst is admitted below the cap only, so what the partitions hold above their quotas stays
below it; and the quotas can then be filled on top of that. -/
namespace Limen.AbstractPartitionedLimiter
open AbstractLimiter AbstractLimiter.State Transition
variable {Ctx : Type} {config : Config Ctx} {bypass : Ctx → Bool} {cap : Int}
  {es : List (Event Ctx)} {s t : State Ctx Table Pc}

/-- The quota of a partition under the cap. -/
def Config.quota (config : Config Ctx) (cap : Int) (p : Nat) : Int :=
  config.computePartitionLimit cap (config.percent p)

theorem one_le_quota (config : Config Ctx) (cap : Int) (p : Nat) : 1 ≤ config.quota cap p :=
  le_max_left _ _

/-- What the partitions hold above their quotas. -/
def excess (config : Config Ctx) (cap : Int) (table : Table) : Int :=
  ∑ p ∈ Finset.range config.partitions.length, max 0 (table.busy p - config.quota cap p)

/-- Holdings that add up to no more than the cap exceed quotas of at least one by less than
the cap. -/
theorem sum_excess_lt {n : Nat} {held quota : Nat → Int} (nonneg : ∀ p, 0 ≤ held p)
    (quotas : ∀ p, 1 ≤ quota p) (positive : 1 ≤ cap)
    (within : ∑ p ∈ Finset.range n, held p ≤ cap) :
    ∑ p ∈ Finset.range n, max 0 (held p - quota p) < cap := by
  by_cases idle : ∀ p ∈ Finset.range n, held p = 0
  · have none : ∑ p ∈ Finset.range n, max 0 (held p - quota p) = 0 := by
      apply Finset.sum_eq_zero
      intro p member
      have := quotas p
      rw [idle p member]
      omega
    omega
  · simp only [not_forall] at idle
    obtain ⟨p, member, busy⟩ := idle
    have below : ∑ p ∈ Finset.range n, max 0 (held p - quota p) < ∑ p ∈ Finset.range n, held p := by
      apply Finset.sum_lt_sum
      · intro q _
        have := nonneg q
        have := quotas q
        omega
      · have := nonneg p
        have := quotas p
        exact ⟨p, member, by omega⟩
    omega

/-- What is known of a call in progress, given that no other is. -/
def Undeceived (cap : Int) (c : Counters Table) : Phase Pc → Prop
  | .acquiring ⟨_, .loadLimit inflight⟩ => inflight = c.inflight
  | .acquiring ⟨_, .burst⟩ => c.inflight < cap
  | .acquiring ⟨p, .exchange current⟩ => current < c.sub.limit p
  | _ => True

/-- An operation takes a unit into a partition by a burst or on its quota, gives one back, or
leaves the partitions as they are. -/
theorem advance_busy {c c' : Counters Table} {input : Input} {phase phase' : Phase Pc}
    {made : Option (Slot Unit)}
    (advanced : phase.advance (gate config) c input = some (c', phase', made)) :
    c'.sub.busy = c.sub.busy ∨
      (∃ p, phase = .acquiring ⟨p, .burst⟩ ∧ c'.sub = c.sub.addBusy p 1) ∨
      (∃ p, phase = .acquiring ⟨p, .exchange (c.sub.busy p)⟩ ∧ c'.sub = c.sub.addBusy p 1) ∨
      ∃ call p, phase = .releasingPartition call ∧ c'.sub = c.sub.addBusy p (-1) := by
  cases phase <;> simp only [Phase.advance, Option.some.injEq, Prod.mk.injEq, reduceCtorEq]
    at advanced <;> obtain ⟨rfl, rfl, rfl⟩ := advanced
  case acquiring pc =>
    obtain ⟨p, point⟩ := pc
    cases point <;> simp only [gate, doAcquire, Config.operation]
    case burst => exact .inr (.inl ⟨p, rfl, rfl⟩)
    case exchange current =>
      by_cases swapped : c.sub.busy p = current ∧ ¬ input.spurious
      · rw [if_pos swapped]
        exact .inr (.inr (.inl ⟨p, by rw [swapped.1], rfl⟩))
      · rw [if_neg swapped]
        exact .inl rfl
    case exchangeDelayed current =>
      left
      split <;> rfl
    all_goals exact .inl trivial
  case releasingPartition call => exact .inr (.inr (.inr ⟨call, _, rfl, rfl⟩))
  all_goals exact .inl rfl

theorem undeceived_backoff {c : Counters Table} (p : Nat) (current : Int) :
    Undeceived cap c (Pc.progress p (config.backoff current)).phase := by
  rw [Config.backoff]
  by_cases room : current < config.maxDelayedThreads
  · rw [if_pos room]
    trivial
  · rw [if_neg room]
    trivial

theorem undeceived_advance {c c' : Counters Table} {input : Input} {phase phase' : Phase Pc}
    {made : Option (Slot Unit)} (fixed : c.limit = cap) (undeceived : Undeceived cap c phase)
    (advanced : phase.advance (gate config) c input = some (c', phase', made)) :
    Undeceived cap c' phase' := by
  cases phase <;> simp only [Phase.advance, Option.some.injEq, Prod.mk.injEq, reduceCtorEq]
    at advanced <;> obtain ⟨rfl, rfl, rfl⟩ := advanced
  case acquiring pc =>
    obtain ⟨p, point⟩ := pc
    cases point <;> simp only [gate, doAcquire, Config.operation, Pc.progress, Progress.phase]
    case loadInflight => rfl
    case loadLimit inflight =>
      obtain rfl : inflight = c.inflight := undeceived
      by_cases reached : c.inflight ≥ c.limit
      · rw [if_pos reached]
        trivial
      · rw [if_neg reached]
        exact fixed ▸ Int.not_le.mp reached
    case loadQuota current =>
      by_cases full : current ≥ c.sub.limit p
      · rw [if_pos full]
        by_cases immediate : config.rejectDelay p = 0
        · rw [if_pos immediate]
          trivial
        · rw [if_neg immediate]
          trivial
      · rw [if_neg full]
        exact Int.not_le.mp full
    case exchange current =>
      by_cases swapped : c.sub.busy p = current ∧ ¬ input.spurious
      · rw [if_pos swapped]
        trivial
      · rw [if_neg swapped]
        trivial
    case loadDelayed => exact undeceived_backoff p _
    case exchangeDelayed current =>
      by_cases reserved : c.sub.delayedThreads = current ∧ ¬ input.spurious
      · rw [if_pos reserved]
        trivial
      · rw [if_neg reserved]
        exact undeceived_backoff p _
    all_goals trivial
  case counting call => split <;> trivial
  all_goals trivial

/-- While a call is about to burst, the others stand still and the partitions hold what is
in flight. -/
theorem sum_busy_at_burst
    (ran : run (step (limiter config bypass)) (initial config cap) es = some s) (alone : Alone s)
    {i p : Nat} {r : Request Ctx Pc} (found : s.requests[i]? = some r)
    (burst : r.phase = .acquiring ⟨p, .burst⟩) :
    ∑ q ∈ Finset.range config.partitions.length, s.sub.busy q = s.inflight := by
  have balanced := counters_conserved ran
  have still (q : Nat) (other : Request Ctx Pc) (member : other ∈ s.requests) :
      reservingIn q other.phase = false ∧ releasingIn q other.phase = false := by
    obtain ⟨j, at'⟩ := List.mem_iff_getElem?.mp member
    by_cases here : j = i
    · subst here
      obtain rfl : r = other := by simpa [found] using at'
      rw [burst]
      simp [reservingIn, releasingIn]
    · have settled : other.phase.settled := by
        by_contra unsettled
        exact here (alone j i other r at' found unsettled (by simp [burst, Phase.settled]))
      cases phase : other.phase <;> simp_all [Phase.settled, reservingIn, releasingIn]
  rw [inflight_eq_sum ran]
  apply Finset.sum_congr rfl
  intro q _
  have reserving : s.requests.countP (fun r => reservingIn q r.phase) = 0 :=
    List.countP_eq_zero.mpr fun other member => by simp [(still q other member).1]
  have releasing : s.requests.countP (fun r => releasingIn q r.phase) = 0 :=
    List.countP_eq_zero.mpr fun other member => by simp [(still q other member).2]
  rw [balanced.busy q, reserving, releasing]
  simp

/-- The invariant of a run of undisturbed calls. -/
structure Lent (config : Config Ctx) (cap : Int) (s : State Ctx Table Pc) : Prop
    extends Undisturbed cap s where
  quotas : ∀ p, s.sub.limit p = config.quota cap p
  undeceived : ∀ (i : Nat) r, s.requests[i]? = some r → Undeceived cap s.toCounters r.phase
  excess_lt : excess config cap s.sub < cap

theorem excess_mono {table table' : Table} (le : ∀ p, table'.busy p ≤ table.busy p) :
    excess config cap table' ≤ excess config cap table := by
  apply Finset.sum_le_sum
  intro p _
  have := le p
  omega

/-- A unit that a partition takes on its quota is no excess. -/
theorem excess_within {table : Table} {p : Nat} (free : table.busy p < config.quota cap p) :
    excess config cap (table.addBusy p 1) = excess config cap table := by
  apply Finset.sum_congr rfl
  intro q _
  rw [addBusy_busy]
  split
  · rename_i here
    subst here
    omega
  · rw [Int.add_zero]

theorem lent_advance {i : Nat} {r : Request Ctx Pc} {input : Input} {c : Counters Table}
    {phase : Phase Pc} {made : Option (Slot Unit)} (positive : 1 ≤ cap)
    (ran : run (step (limiter config bypass)) (initial config cap) es = some s)
    (lent : Lent config cap s) (found : s.requests[i]? = some r)
    (advanced : r.phase.advance (gate config) s.toCounters input = some (c, phase, made)) :
    excess config cap c.sub < cap := by
  have undeceived := lent.undeceived i r found
  rcases advance_busy advanced with same | ⟨p, burst, taken⟩ | ⟨p, exchange, taken⟩ |
    ⟨call, p, _, released⟩
  · exact Int.lt_of_le_of_lt (excess_mono fun p => by rw [same]) lent.excess_lt
  · have below : s.inflight < cap := by
      rw [burst] at undeceived
      exact undeceived
    have held := sum_busy_at_burst ran lent.alone found burst
    have balanced := counters_conserved ran
    have within : ∑ q ∈ Finset.range config.partitions.length, (s.sub.addBusy p 1).busy q ≤ cap := by
      simp only [addBusy_busy, Finset.sum_add_distrib, held, Finset.sum_ite_eq]
      split <;> omega
    rw [taken]
    refine sum_excess_lt ?_ (one_le_quota config cap) positive within
    intro q
    have := balanced.busy_nonneg q
    rw [addBusy_busy]
    split <;> omega
  · have below : s.sub.busy p < config.quota cap p := by
      rw [exchange] at undeceived
      exact lent.quotas p ▸ undeceived
    rw [taken, excess_within below]
    exact lent.excess_lt
  · refine Int.lt_of_le_of_lt (excess_mono ?_) lent.excess_lt
    intro q
    rw [released, addBusy_busy]
    split <;> omega

theorem lent_step {e : Event Ctx} (positive : 1 ≤ cap)
    (ran : run (step (limiter config bypass)) (initial config cap) es = some s)
    (lent : Lent config cap s) (admitted : OneAtATime s e)
    (stepped : s.step (limiter config bypass) e = some t) : Lent config cap t := by
  have valid := run_valid ran
  have undisturbed := undisturbed_step valid lent.toUndisturbed admitted stepped
  rcases step_cases valid stepped with
    ⟨context, rfl, same, requests⟩ | ⟨k, r, phase, here, moved, requests⟩ |
      ⟨notAdvance, notAcquire, requests, _⟩
  · refine ⟨undisturbed, same ▸ lent.quotas, ?_, same ▸ lent.excess_lt⟩
    intro i r found
    rw [requests] at found
    rw [same]
    rcases Pool.getElem?_concat_eq_some.mp found with old | ⟨_, rfl⟩
    · exact lent.undeceived i r old
    · rcases (limiter config bypass).enter_phase context with phase | phase
      · rw [phase]
        trivial
      · rw [phase]
        trivial
  · obtain ⟨_, quotas⟩ := moves_quotas moved
    rcases moved.cases with ⟨input, made, rfl, advanced⟩ | ⟨op, call, rfl, _, _, same, rfl⟩
    · refine ⟨undisturbed, fun p => by rw [quotas, lent.quotas], ?_,
        lent_advance positive ran lent here advanced⟩
      intro i r' found
      rw [requests] at found
      rcases Pool.getElem?_modify_cases here found with ⟨rfl, rfl⟩ | ⟨other, old⟩
      · exact undeceived_advance lent.fixed (lent.undeceived i r here) advanced
      · -- Another call has returned, so nothing is asked of it.
        have settled : r'.phase.settled := by
          by_contra unsettled
          exact other (lent.alone i k r' r old here unsettled (advance_unsettled advanced))
        cases phase' : r'.phase with
        | acquiring pc => simp [phase', Phase.settled] at settled
        | _ => trivial
    · refine ⟨undisturbed, same ▸ lent.quotas, ?_, same ▸ lent.excess_lt⟩
      intro i r' found
      rw [requests] at found
      rw [same]
      rcases Pool.getElem?_modify_cases here found with ⟨rfl, rfl⟩ | ⟨_, old⟩
      · trivial
      · exact lent.undeceived i r' old
  · cases e with
    | guard op =>
      have same : t.toCounters = s.toCounters := by
        obtain ⟨heap, completion, _, rfl⟩ := step_guard stepped
        rfl
      refine ⟨undisturbed, same ▸ lent.quotas, ?_, same ▸ lent.excess_lt⟩
      intro i r found
      rw [requests] at found
      rw [same]
      exact lent.undeceived i r found
    | tryAcquire context => exact absurd rfl (notAcquire context)
    | advance i input => exact absurd rfl (notAdvance i input)
    | setLimit value => exact absurd admitted id
    | notify => exact absurd admitted id

theorem start_lent (config : Config Ctx) (positive : 1 ≤ cap) :
    Lent config cap (initial config cap) := by
  refine ⟨start_undisturbed config cap, fun _ => rfl, by simp [initial, start], ?_⟩
  have none : excess config cap (initial config cap).sub = 0 := by
    apply Finset.sum_eq_zero
    intro p _
    have := one_le_quota config cap p
    simp only [initial, start, gate]
    omega
  omega

theorem run_lent (positive : 1 ≤ cap)
    (ran : run (step (limiter config bypass)) (initial config cap) es = some s)
    (along : Along (step (limiter config bypass)) OneAtATime (initial config cap) es) :
    Lent config cap s := by
  refine history (P := fun es s => Along (step (limiter config bypass)) OneAtATime
    (initial config cap) es → Lent config cap s) (fun _ => start_lent config positive) ?_ ran along
  intro es s e t before lent stepped along
  exact lent_step positive before (lent along.left) (along.right before).1 stepped

/-- In flight is at most the quotas and what the partitions hold above them. -/
theorem inflight_le_quotas (positive : 1 ≤ cap)
    (ran : run (step (limiter config bypass)) (initial config cap) es = some s)
    (along : Along (step (limiter config bypass)) OneAtATime (initial config cap) es) :
    s.inflight < cap + ∑ p ∈ Finset.range config.partitions.length, config.quota cap p := by
  have lent := run_lent positive ran along
  have balanced := counters_conserved ran
  have split : ∑ p ∈ Finset.range config.partitions.length, s.sub.busy p ≤
      ∑ p ∈ Finset.range config.partitions.length, config.quota cap p + excess config cap s.sub := by
    rw [excess, ← Finset.sum_add_distrib]
    apply Finset.sum_le_sum
    intro p _
    omega
  have := balanced.inflight_le
  have := lent.excess_lt
  omega

/-- The quotas of a table that `Build` makes: those of the declared partitions, and one slot
for calls that no resolver places. -/
theorem sum_quotas (cap : Int) {specs : List Partition}
    {resolvers : List (Ctx → Option String)} {maxDelayedThreads nanToInt : Int}
    (built : config = .build specs resolvers maxDelayedThreads nanToInt) :
    ∑ p ∈ Finset.range config.partitions.length, config.quota cap p =
      (specs.map fun spec => config.computePartitionLimit cap spec.percent).sum + 1 := by
  have table : config.partitions = specs ++ [⟨unknownPartitionName, .rat 0, 0⟩] := by rw [built]; rfl
  have quotas := Pool.sum_range_getElem? (fun partition : Option Partition =>
    config.computePartitionLimit cap ((partition.map Partition.percent).getD (.rat 0)))
    config.partitions
  rw [show ∑ p ∈ Finset.range config.partitions.length, config.quota cap p = _ from quotas, table]
  simp [Config.computePartitionLimit]

/-- A state between calls from which the next can be made: calls that have returned, and
addresses that are free. -/
structure Ready (config : Config Ctx) (cap : Int) (s : State Ctx Table Pc) : Prop where
  settled : s.Settled
  limit : s.limit = cap
  quotas : ∀ p, s.sub.limit p = config.quota cap p
  free : ∀ addr, s.requests.length ≤ addr → s.heap addr = none

theorem along_call {context : Ctx} {operations : List (Event Ctx)} (settled : s.Settled)
    (own : ∀ e ∈ operations, ∃ i input, e = .advance i input) :
    Along (step (limiter config bypass)) OneAtATime s (.tryAcquire context :: operations) := by
  refine ⟨settled, fun t _ => along_iff.mpr ?_⟩
  rintro before e after u rfl _
  obtain ⟨i, input, rfl⟩ := own e (by simp)
  trivial

/-- The operations of a call that is admitted, left alone from beginning to end. -/
theorem run_admitted {context : Ctx} {p : Nat} (ready : Ready config cap s)
    (plain : bypass context = false) (mine : config.resolvePartition context = p)
    (room : s.inflight < cap ∨ s.sub.busy p < config.quota cap p) : ∃ operations t,
      run (step (limiter config bypass)) s operations = some t ∧
      Along (step (limiter config bypass)) OneAtATime s operations ∧ Ready config cap t ∧
      t.inflight = s.inflight + 1 ∧ t.sub = s.sub.addBusy p 1 := by
  obtain ⟨c, publishing, requests, heap⟩ := s
  let input : Input := { addr := requests.length }
  let operation : Event Ctx := .advance requests.length input
  let slot : Slot Unit := ⟨(), 0, c.inflight + 1, false, p⟩
  let after : State Ctx Table Pc :=
    ⟨{ c with inflight := c.inflight + 1, sub := c.sub.addBusy p 1 }, publishing,
      requests ++ [⟨context, .held slot⟩],
      Function.update heap requests.length (some (.makeSlot requests.length slot))⟩
  have empty : heap requests.length = none := ready.free _ (Nat.le_refl _)
  have unmade : heap.construct requests.length requests.length none = some heap := rfl
  have made : heap.construct requests.length requests.length (some slot) = some after.heap := by
    simp only [Heap.construct, Heap.make, empty]
    rfl
  have own (n : Nat) : ∀ e ∈ List.replicate n operation, ∃ i input, e = .advance i input := by
    intro e member
    exact ⟨_, _, (List.mem_replicate.mp member).2⟩
  have settled : after.Settled := by
    intro r member
    rcases List.mem_append.mp member with old | new
    · exact ready.settled r old
    · rw [List.mem_singleton.mp new]
      rfl
  have ready' : Ready config cap after := by
    refine ⟨settled, ready.limit, ready.quotas, ?_⟩
    intro addr beyond
    have later : requests.length < addr := by simpa [after] using beyond
    exact (Function.update_of_ne (Nat.ne_of_gt later) _ _).trans
      (ready.free addr (Nat.le_of_lt later))
  have entered : step (limiter config bypass) ⟨c, publishing, requests, heap⟩ (.tryAcquire context) =
      some ⟨c, publishing, requests ++ [⟨context, .acquiring ⟨p, .loadInflight⟩⟩], heap⟩ := by
    simp [step, limiter, gate, plain, mine]
  have acquire : (limiter config bypass).gate.acquire = doAcquire config := rfl
  have limit : c.limit = cap := ready.limit
  have quota : c.sub.limit p = config.quota cap p := ready.quotas p
  by_cases below : c.inflight < cap
  · refine ⟨.tryAcquire context :: List.replicate 5 operation, after, ?_,
      along_call ready.settled (own 5), ready', rfl, rfl⟩
    simp [run, entered, List.replicate, operation, input, step_last, Phase.advance, acquire,
      doAcquire, Config.operation, Pc.progress, Progress.phase, unmade, limit, Int.not_le.mpr below,
      made, slot, after]
  · have free : c.sub.busy p < config.quota cap p := room.resolve_left below
    refine ⟨.tryAcquire context :: List.replicate 7 operation, after, ?_,
      along_call ready.settled (own 7), ready', rfl, rfl⟩
    simp [run, entered, List.replicate, operation, input, step_last, Phase.advance, acquire,
      doAcquire, Config.operation, Pc.progress, Progress.phase, unmade, limit,
      Int.not_lt.mp below, quota, Int.not_le.mpr free, made, slot, after]

/-- Calls of one partition, one after the other, as long as each finds room. -/
theorem run_filled {context : Ctx} {p : Nat} (ready : Ready config cap s)
    (plain : bypass context = false) (mine : config.resolvePartition context = p) (n : Nat)
    (room : ∀ k < n, s.inflight + k < cap ∨ s.sub.busy p + k < config.quota cap p) :
    ∃ operations t, run (step (limiter config bypass)) s operations = some t ∧
      Along (step (limiter config bypass)) OneAtATime s operations ∧ Ready config cap t ∧
      t.inflight = s.inflight + n ∧
      ∀ q, t.sub.busy q = s.sub.busy q + if p = q then (n : Int) else 0 := by
  induction n with
  | zero => exact ⟨[], s, rfl, trivial, ready, by simp, by simp⟩
  | succ n ih =>
    obtain ⟨first, middle, ran, along, ready', inflight, busy⟩ :=
      ih fun k small => room k (Nat.lt_succ_of_lt small)
    have next : middle.inflight < cap ∨ middle.sub.busy p < config.quota cap p := by
      rw [inflight, busy p, if_pos rfl]
      exact room n (Nat.lt_succ_self n)
    obtain ⟨second, t, ran', along', ready'', inflight', busy'⟩ :=
      run_admitted ready' plain mine next
    refine ⟨first ++ second, t, run_append_eq_some.mpr ⟨middle, ran, ran'⟩,
      along.append ran along', ready'', ?_, ?_⟩
    · rw [inflight', inflight]
      push_cast
      omega
    · intro q
      rw [busy', addBusy_busy, busy q]
      split <;> push_cast <;> omega

/-- Every partition before the `n`-th is filled to its quota, whatever is in flight. -/
theorem run_quotas (reach : ∀ p < config.partitions.length, ∃ context,
      bypass context = false ∧ config.resolvePartition context = p)
    (ready : Ready config cap s) (n : Nat)
    (within : n ≤ config.partitions.length) (idle : ∀ p < n, s.sub.busy p = 0) :
    ∃ operations t, run (step (limiter config bypass)) s operations = some t ∧
      Along (step (limiter config bypass)) OneAtATime s operations ∧ Ready config cap t ∧
      t.inflight = s.inflight + ∑ p ∈ Finset.range n, config.quota cap p ∧
      ∀ q, n ≤ q → t.sub.busy q = s.sub.busy q := by
  induction n with
  | zero => exact ⟨[], s, rfl, trivial, ready, by simp, fun _ _ => rfl⟩
  | succ n ih =>
    obtain ⟨first, middle, ran, along, ready', inflight, busy⟩ :=
      ih (Nat.le_of_succ_le within) fun p small => idle p (Nat.lt_succ_of_lt small)
    obtain ⟨context, plain, mine⟩ := reach n within
    have quota := one_le_quota config cap n
    have count : ((config.quota cap n).toNat : Int) = config.quota cap n :=
      Int.toNat_of_nonneg (by omega)
    obtain ⟨second, t, ran', along', ready'', inflight', busy'⟩ :=
      run_filled ready' plain mine (config.quota cap n).toNat (by
        intro k small
        rw [busy n (Nat.le_refl n), idle n (Nat.lt_succ_self n)]
        omega)
    refine ⟨first ++ second, t, run_append_eq_some.mpr ⟨middle, ran, ran'⟩,
      along.append ran along', ready'', ?_, ?_⟩
    · rw [inflight', inflight, count, Finset.sum_range_succ, Int.add_assoc]
    · intro q beyond
      rw [busy' q, if_neg (by omega), busy q (by omega), Int.add_zero]

theorem initial_ready (config : Config Ctx) (cap : Int) : Ready config cap (initial config cap) :=
  ⟨by simp [Settled, initial, start], rfl, fun _ => rfl, fun _ _ => rfl⟩

/-- The bound is reached: first the partition of calls that no resolver places bursts up to
the cap, then every declared partition takes its quota. -/
theorem run_worst {specs : List Partition} {resolvers : List (Ctx → Option String)}
    {maxDelayedThreads nanToInt : Int} (positive : 1 ≤ cap)
    (built : config = .build specs resolvers maxDelayedThreads nanToInt)
    (reach : ∀ p < config.partitions.length, ∃ context,
      bypass context = false ∧ config.resolvePartition context = p) :
    ∃ operations t, run (step (limiter config bypass)) (initial config cap) operations = some t ∧
      Along (step (limiter config bypass)) OneAtATime (initial config cap) operations ∧ t.Settled ∧
      t.inflight =
        cap + (specs.map fun spec => config.computePartitionLimit cap spec.percent).sum := by
  have length : config.partitions.length = specs.length + 1 := by
    rw [built]
    exact List.length_append
  have count : (cap.toNat : Int) = cap := Int.toNat_of_nonneg (by omega)
  obtain ⟨context, plain, mine⟩ := reach specs.length (by omega)
  obtain ⟨first, middle, ran, along, ready, inflight, busy⟩ :=
    run_filled (initial_ready config cap) plain mine cap.toNat (by
      intro k small
      have nothing : (initial config cap).inflight = 0 := rfl
      omega)
  obtain ⟨second, t, ran', along', ready', inflight', _⟩ :=
    run_quotas reach ready specs.length (by omega) (by
      intro p small
      rw [busy p, if_neg (by omega)]
      rfl)
  refine ⟨first ++ second, t, run_append_eq_some.mpr ⟨middle, ran, ran'⟩,
    along.append ran along', ready'.settled, ?_⟩
  have unplaced : config.quota cap specs.length = 1 := by
    have percent : config.percent specs.length = .rat 0 := by
      rw [built]
      simp [Config.percent, Config.build]
    simp [Config.quota, percent, Config.computePartitionLimit]
  have quotas := sum_quotas cap built
  rw [length, Finset.sum_range_succ, unplaced] at quotas
  have nothing : (initial config cap).inflight = 0 := rfl
  rw [inflight', inflight, nothing, count, add_right_cancel quotas, Int.zero_add]

/-- For every table that `Build` accepts, over a fixed cap and with calls and completions one
at a time: the most that can be in flight is the cap and the quotas of the declared
partitions together. -/
theorem worst_over_admission (b : Builder Ctx) (strCat : Percent → String) (nanToInt : Int)
    (built : b.build strCat nanToInt = .ok (config, cap)) (positive : 1 ≤ cap)
    (reach : ∀ p < config.partitions.length, ∃ context,
      b.bypassPredicate context = false ∧ config.resolvePartition context = p) :
    (∀ es s, run (step (limiter config b.bypassPredicate)) (initial config cap) es = some s →
      Along (step (limiter config b.bypassPredicate)) OneAtATime (initial config cap) es →
      s.inflight ≤ cap +
        (b.partitionSpecs.map fun spec => config.computePartitionLimit cap spec.percent).sum) ∧
    ∃ es s, run (step (limiter config b.bypassPredicate)) (initial config cap) es = some s ∧
      Along (step (limiter config b.bypassPredicate)) OneAtATime (initial config cap) es ∧
      s.Settled ∧ s.inflight = cap +
        (b.partitionSpecs.map fun spec => config.computePartitionLimit cap spec.percent).sum := by
  obtain ⟨specs, resolvers, percents, _, table⟩ := Builder.build_ok built
  have declared :
      (b.partitionSpecs.map fun spec => config.computePartitionLimit cap spec.percent) =
        specs.map fun spec => config.computePartitionLimit cap spec.percent := by
    have both := congrArg (List.map (config.computePartitionLimit cap)) percents
    simpa [List.map_map, Function.comp_def] using both.symm
  rw [declared]
  constructor
  · intro es s ran along
    have below := inflight_le_quotas positive ran along
    rw [sum_quotas cap table] at below
    omega
  · exact run_worst positive table reach

/-- Two halves of a cap of two; a context is the name of its partition. -/
def halvesOfTwo : Builder String :=
  (({ limit := some 2, partitionResolvers := [some some] } : Builder String).partition "gold"
    (.rat (1 / 2))).partition "silver" (.rat (1 / 2))

theorem halvesOfTwo_worst : ∃ config : Config String,
    halvesOfTwo.build (fun _ => "") 0 = .ok (config, 2) ∧
    ∃ es s, run (step (limiter config halvesOfTwo.bypassPredicate)) (initial config 2) es = some s ∧
      s.inflight = 4 := by
  have built : halvesOfTwo.build (fun _ => "") 0 =
      .ok (.build [⟨"gold", .rat (1 / 2), 0⟩, ⟨"silver", .rat (1 / 2), 0⟩] [some] 100 0, 2) := by
    have half : ¬ (2⁻¹ : ℚ) < 0 ∧ ¬ 1 < (2⁻¹ : ℚ) := by norm_num
    have whole : ¬ (1 + (10 ^ 9)⁻¹ : ℚ) < 2⁻¹ + 2⁻¹ := by norm_num
    simp [halvesOfTwo, Builder.partition, updateSpec, Builder.build, Builder.checkSpecs,
      Builder.applyDelays, Builder.requireResolvers, unknownPartitionName, Percent.outOfRange,
      Percent.add, Percent.exceeds, half, whole]
  refine ⟨_, built, ?_⟩
  obtain ⟨es, s, ran, _, _, inflight⟩ :=
    (worst_over_admission halvesOfTwo (fun _ => "") 0 built (by decide) (by
      intro p small
      have three : p < 3 := small
      obtain rfl | rfl | rfl : p = 0 ∨ p = 1 ∨ p = 2 := by omega
      · exact ⟨"gold", rfl, by decide⟩
      · exact ⟨"silver", rfl, by decide⟩
      · exact ⟨"bronze", rfl, by decide⟩)).2
  refine ⟨es, s, ran, inflight.trans ?_⟩
  decide +kernel
end Limen.AbstractPartitionedLimiter
