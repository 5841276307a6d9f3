import Limen.AbstractLimiter.Accounting
import Limen.AbstractPartitionedLimiter
import Mathlib.Algebra.Order.BigOperators.Group.Finset

/-! Conservation of the partition counters and the in-flight counter, and the ledger of
every call: which counters it moved, by how much and in which order. -/
namespace Limen.AbstractPartitionedLimiter
open AbstractLimiter AbstractLimiter.State Transition
variable {Ctx : Type} {config : Config Ctx} {bypass : Ctx → Bool} {limit : Int}
  {es : List (Event Ctx)} {s t : State Ctx Table Pc}

def limiter (config : Config Ctx) (bypass : Ctx → Bool) : Limiter Ctx Table Pc :=
  ⟨gate config, bypass⟩

def initial (config : Config Ctx) (limit : Int) : State Ctx Table Pc := start (gate config) limit

/-- An outstanding slot of partition `p`: in-flight is incremented and not yet decremented. -/
def outstandingIn (p : Nat) : Phase Pc → Bool
  | .admitted result => result.partitionIndex.toNat = p
  | .held slot => slot.partitionIndex.toNat = p
  | .decrementing call => call.slot.partitionIndex.toNat = p
  | _ => false

/-- An acquire of partition `p` that has incremented busy and not yet in-flight. -/
def reservingIn (p : Nat) : Phase Pc → Bool
  | .acquiring pc => pc.point = .reserve ∧ pc.partitionIndex = p
  | _ => false

/-- A release of partition `p` that has decremented in-flight and not yet busy. -/
def releasingIn (p : Nat) : Phase Pc → Bool
  | .releasingPartition call => call.slot.partitionIndex.toNat = p
  | _ => false

def occupies (p : Nat) (phase : Phase Pc) : Bool :=
  outstandingIn p phase || reservingIn p phase || releasingIn p phase

theorem addBusy_busy (table : Table) (p q : Nat) (delta : Int) :
    (table.addBusy p delta).busy q = table.busy q + if p = q then delta else 0 := by
  simp only [Table.addBusy, Function.update_apply]
  by_cases same : q = p
  · simp [same]
  · simp [same, Ne.symm same]

theorem acquire_busy (c : Counters Table) (pc : Pc) (spurious : Bool) (p : Nat) :
    (doAcquire config c.limit c.toGauge pc spurious).1.sub.busy p +
        (if occupies p (.acquiring pc) then 1 else 0) =
      c.sub.busy p +
        (if occupies p (doAcquire config c.limit c.toGauge pc spurious).2.phase then 1 else 0) := by
  obtain ⟨q, point⟩ := pc
  rw [doAcquire]
  rcases operation_cases config c.limit c.toGauge q spurious point with
    ⟨rfl, operated⟩ | ⟨elsewhere, operated⟩ |
    ⟨elsewhere, delayed, progress, operated, notReserve, notAdmitted⟩ <;>
    simp only [operated]
  · simp [Pc.progress, Progress.phase, occupies, outstandingIn, reservingIn, releasingIn]
  · have outside : occupies p (.acquiring ⟨q, point⟩) = false := by
      cases point <;> simp_all [occupies, outstandingIn, reservingIn, releasingIn]
    rw [outside, addBusy_busy]
    simp [Pc.progress, Progress.phase, occupies, outstandingIn, reservingIn, releasingIn]
  · have outside : occupies p (.acquiring ⟨q, point⟩) = false := by
      cases point <;> simp_all [occupies, outstandingIn, reservingIn, releasingIn]
    have next : occupies p (Pc.progress q progress).phase = false := by
      rcases progress with point' | _ | result
      · cases point' <;> simp_all [Pc.progress, Progress.phase, occupies, outstandingIn,
          reservingIn, releasingIn]
      · rfl
      · exact absurd rfl (notAdmitted result)
    rw [outside, next]

theorem moves_busy {i : Nat} {c c' : Counters Table} {e : Event Ctx} {phase phase' : Phase Pc}
    (moved : Moves (gate config) i c e phase c' phase') (p : Nat) :
    c'.sub.busy p + (if occupies p phase then 1 else 0) =
      c.sub.busy p + (if occupies p phase' then 1 else 0) := by
  cases moved with
  | complete op call own limited => rfl
  | advance advanced =>
    rename_i input made
    cases phase <;> simp only [Phase.advance, Option.some.injEq, Prod.mk.injEq, reduceCtorEq]
      at advanced <;> obtain ⟨rfl, rfl, rfl⟩ := advanced
    case acquiring pc => exact acquire_busy c pc input.spurious p
    case releasingPartition call =>
      simp only [gate, onReleasePartition, addBusy_busy, occupies, outstandingIn, reservingIn,
        releasingIn, Bool.or_false, Bool.false_or, decide_eq_true_eq, Bool.false_eq_true, if_false]
      split <;> omega
    case counting call =>
      obtain ⟨id, slot, status⟩ := call
      cases status <;> rfl
    all_goals simp [occupies, outstandingIn, reservingIn, releasingIn, Counters.count]

theorem busy_eq (ran : run (step (limiter config bypass)) (initial config limit) es = some s)
    (p : Nat) : s.sub.busy p = s.requests.countP fun r => occupies p r.phase := by
  refine conserved (fun c => c.sub.busy p) rfl ?_ (fun moved => moves_busy moved p) ?_ ran
  · intro context
    rcases (limiter config bypass).enter_phase context with phase | phase <;> rw [phase] <;> rfl
  · rintro c c' ⟨_, same | ⟨value, stores, changed⟩⟩
    · rw [same]
    · rw [changed]
      rfl

/-- The three kinds of occupation exclude each other. -/
theorem countP_occupies (p : Nat) (requests : List (Request Ctx Pc)) :
    requests.countP (fun r => occupies p r.phase) =
      requests.countP (fun r => outstandingIn p r.phase) +
        requests.countP (fun r => reservingIn p r.phase) +
        requests.countP (fun r => releasingIn p r.phase) := by
  induction requests with
  | nil => rfl
  | cons r rest ih =>
    have once : (if occupies p r.phase then 1 else 0) = (if outstandingIn p r.phase then 1 else 0) +
        (if reservingIn p r.phase then 1 else 0) + (if releasingIn p r.phase then 1 else 0) := by
      cases r.phase <;> simp [occupies, outstandingIn, reservingIn, releasingIn]
    simp only [List.countP_cons, ih]
    omega

/-- Everything that a call does is done to partition `p`. -/
def Routed (p : Nat) : Phase Pc → Prop
  | .acquiring pc => pc.partitionIndex = p
  | .admitted result => result.partitionIndex = p
  | .held slot => slot.partitionIndex = p
  | .decrementing call | .releasingPartition call | .counting call | .sampling call
  | .completed call => call.slot.partitionIndex = p
  | .bypassing | .rejecting | .rejected | .bypassed => True

theorem acquire_routed (c : Counters Table) (pc : Pc) (spurious : Bool) :
    Routed pc.partitionIndex (doAcquire config c.limit c.toGauge pc spurious).2.phase := by
  rw [doAcquire]
  rcases operation_cases config c.limit c.toGauge pc.partitionIndex spurious pc.point with
    ⟨_, operated⟩ | ⟨_, operated⟩ | ⟨_, _, progress, operated, _, notAdmitted⟩ <;>
    simp only [operated]
  · rfl
  · rfl
  · rcases progress with point | _ | result
    · rfl
    · trivial
    · exact absurd rfl (notAdmitted result)

theorem moves_routed {i p : Nat} {c c' : Counters Table} {e : Event Ctx}
    {phase phase' : Phase Pc} (routed : Routed p phase)
    (moved : Moves (gate config) i c e phase c' phase') : Routed p phase' := by
  cases moved with
  | complete op call own limited => exact routed
  | advance advanced =>
    rename_i input made
    cases phase <;> simp only [Phase.advance, Option.some.injEq, Prod.mk.injEq, reduceCtorEq]
      at advanced <;> obtain ⟨rfl, rfl, rfl⟩ := advanced
    case acquiring pc =>
      obtain rfl : pc.partitionIndex = p := routed
      exact acquire_routed c pc input.spurious
    case counting call => split <;> exact routed
    all_goals exact routed

/-- Every call, and with it its slot, keeps the partition its context resolves to. -/
theorem run_routed (ran : run (step (limiter config bypass)) (initial config limit) es = some s)
    {i : Nat} {r : Request Ctx Pc} (found : s.requests[i]? = some r) :
    Routed (config.resolvePartition r.context) r.phase := by
  refine forall_requests (Q := fun _ r => Routed (config.resolvePartition r.context) r.phase)
    ?_ ?_ ran found
  · intro i context
    rcases (limiter config bypass).enter_phase context with phase | phase
    · rw [phase]
      trivial
    · rw [phase]
      rfl
  · intro i r c e c' phase routed moved
    exact moves_routed routed moved

theorem outstandingIn_of_routed {p q : Nat} {phase : Phase Pc} (routed : Routed q phase) :
    outstandingIn p phase = (phase.outstanding && q == p) := by
  cases phase <;> simp only [Routed] at routed <;>
    simp [outstandingIn, Phase.outstanding, routed, beq_eq_decide]

/-- The in-flight counter, partition by partition. -/
theorem inflight_eq_sum
    (ran : run (step (limiter config bypass)) (initial config limit) es = some s) :
    s.inflight = ∑ p ∈ Finset.range config.partitions.length,
      (s.requests.countP fun r => outstandingIn p r.phase : Int) := by
  have counted := Pool.sum_countP_class config.partitions.length
    (fun r : Request Ctx Pc => r.phase.outstanding)
    (fun r => config.resolvePartition r.context) (l := s.requests)
    fun r _ _ => config.resolvePartition_lt r.context
  rw [inflight_eq ran, ← counted]
  push_cast
  apply Finset.sum_congr rfl
  intro p _
  congr 1
  apply List.countP_congr
  intro r member
  obtain ⟨i, found⟩ := List.mem_iff_getElem?.mp member
  rw [outstandingIn_of_routed (run_routed ran found)]

inductive Movement where
  | busy (p : Nat) (delta : Int)
  | inflight (delta : Int)
  deriving DecidableEq, Repr

/-- The differences between two states of the counters of `n` partitions. -/
def movements (n : Nat) (c c' : Counters Table) : List Movement :=
  ((List.range n).filter fun p => c'.sub.busy p ≠ c.sub.busy p).map
      (fun p => .busy p (c'.sub.busy p - c.sub.busy p)) ++
    if c'.inflight = c.inflight then [] else [.inflight (c'.inflight - c.inflight)]

theorem movements_gauge {n : Nat} {c c' : Counters Table} (same : c'.sub.busy = c.sub.busy) :
    movements n c c' =
      if c'.inflight = c.inflight then [] else [.inflight (c'.inflight - c.inflight)] := by
  simp [movements, same]

theorem movements_none {n : Nat} {c c' : Counters Table} (busy : c'.sub.busy = c.sub.busy)
    (inflight : c'.inflight = c.inflight) : movements n c c' = [] := by
  rw [movements_gauge busy, if_pos inflight]

theorem movements_busy {n p : Nat} {delta : Int} {c c' : Counters Table} (small : p < n)
    (proper : delta ≠ 0) (added : c'.sub = c.sub.addBusy p delta)
    (same : c'.inflight = c.inflight) : movements n c c' = [.busy p delta] := by
  have changed : (fun q => decide (c'.sub.busy q ≠ c.sub.busy q)) = fun q => decide (q = p) := by
    funext q
    rw [added, addBusy_busy]
    by_cases here : p = q
    · simp [here, proper]
    · simp [here, Ne.symm here]
  have once : (List.range n).count p = 1 :=
    List.count_eq_one_of_mem List.nodup_range (List.mem_range.mpr small)
  have only : ((List.range n).filter fun q => decide (q = p)) = [p] := by
    rw [List.filter_eq, once]
    rfl
  rw [movements, changed, only, if_pos same, added]
  simp [addBusy_busy]

/-- The movements of a call that has come this far, all in one partition. -/
def ledger (p : Nat) : Phase Pc → List Movement
  | .acquiring pc => if pc.point = .reserve then [.busy p 1] else []
  | .admitted _ | .held _ | .decrementing _ => [.busy p 1, .inflight 1]
  | .releasingPartition _ => [.busy p 1, .inflight 1, .inflight (-1)]
  | .counting _ | .sampling _ | .completed _ =>
    [.busy p 1, .inflight 1, .inflight (-1), .busy p (-1)]
  | .bypassing | .rejecting | .rejected | .bypassed => []

theorem ledger_acquire {n : Nat} (c : Counters Table) (pc : Pc) (spurious : Bool)
    (small : pc.partitionIndex < n) :
    ledger pc.partitionIndex (doAcquire config c.limit c.toGauge pc spurious).2.phase =
      ledger pc.partitionIndex (.acquiring pc) ++ movements n c
        { c with toGauge := (doAcquire config c.limit c.toGauge pc spurious).1 } := by
  rw [doAcquire]
  rcases operation_cases config c.limit c.toGauge pc.partitionIndex spurious pc.point with
    ⟨atReserve, operated⟩ | ⟨elsewhere, operated⟩ |
      ⟨elsewhere, delayed, progress, operated, notReserve, notAdmitted⟩ <;> simp only [operated]
  · rw [movements_gauge (by rfl)]
    simp [ledger, atReserve, Pc.progress, Progress.phase]
  · rw [movements_busy small one_ne_zero (by rfl) (by rfl)]
    simp [ledger, elsewhere, Pc.progress, Progress.phase]
  · rw [movements_gauge (by rfl)]
    rcases progress with point | _ | result
    · have stays : point ≠ .reserve := by
        rintro rfl
        exact notReserve rfl
      simp [ledger, elsewhere, Pc.progress, Progress.phase, stays]
    · simp [ledger, elsewhere, Pc.progress, Progress.phase]
    · exact absurd rfl (notAdmitted result)

theorem ledger_advance {n p : Nat} {c c' : Counters Table} {input : Input}
    {phase phase' : Phase Pc} {made : Option (Slot Unit)} (small : p < n) (routed : Routed p phase)
    (advanced : phase.advance (gate config) c input = some (c', phase', made)) :
    ledger p phase' = ledger p phase ++ movements n c c' := by
  cases phase <;> simp only [Phase.advance, Option.some.injEq, Prod.mk.injEq, reduceCtorEq]
    at advanced <;> obtain ⟨rfl, rfl, rfl⟩ := advanced
  case acquiring pc =>
    obtain rfl : pc.partitionIndex = p := routed
    exact ledger_acquire c pc input.spurious small
  case decrementing call =>
    rw [movements_gauge (by rfl), if_neg (by simp)]
    simp [ledger]
  case releasingPartition call =>
    have released : onReleasePartition call.slot.partitionIndex c.sub = c.sub.addBusy p (-1) := by
      have index : call.slot.partitionIndex = p := routed
      rw [onReleasePartition, index, Int.toNat_natCast]
    rw [movements_busy small (show (-1 : Int) ≠ 0 by decide) (by exact released) (by rfl)]
    rfl
  case counting call =>
    rw [movements_none (by rfl) (by rfl)]
    split <;> simp [ledger]
  all_goals
    rw [movements_none (by rfl) (by rfl)]
    simp [ledger]

/-- What every call has moved so far, in the order of the run. -/
def movementLog (config : Config Ctx) (bypass : Ctx → Bool) (limit : Int)
    (es : List (Event Ctx)) : List (Nat × Movement) :=
  log (limiter config bypass) limit (fun c c' _ => movements config.partitions.length c c') es

theorem run_ledger
    (ran : run (step (limiter config bypass)) (initial config limit) es = some s) :
    Credited (fun r moved => moved = ledger (config.resolvePartition r.context) r.phase)
      (movementLog config bypass limit es) s := by
  refine run_credited ?_ ?_ ?_ ran
  · intro context
    rcases (limiter config bypass).enter_phase context with phase | phase <;> rw [phase] <;> rfl
  · rintro before s i r input c phase made seen _ ran found advanced rfl
    exact (ledger_advance (config.resolvePartition_lt r.context) (run_routed ran found)
      advanced).symm
  · rintro r call seen atHeld rfl
    rw [atHeld]
    rfl

/-- The balance of a state reached by a run. -/
structure Balanced (config : Config Ctx) (bypass : Ctx → Bool) (limit : Int)
    (es : List (Event Ctx)) (s : State Ctx Table Pc) : Prop where
  busy : ∀ p, s.sub.busy p = (s.requests.countP fun r => outstandingIn p r.phase) +
    (s.requests.countP fun r => reservingIn p r.phase) +
    (s.requests.countP fun r => releasingIn p r.phase)
  busy_nonneg : ∀ p, 0 ≤ s.sub.busy p
  inflight_nonneg : 0 ≤ s.inflight
  inflight_le : s.inflight ≤ ∑ p ∈ Finset.range config.partitions.length, s.sub.busy p
  settled : s.Settled →
    s.inflight = ∑ p ∈ Finset.range config.partitions.length, s.sub.busy p
  /-- A rejected or bypassed call has moved nothing, an outstanding slot one unit into its
  partition and one into in-flight, and a completed one the same units out again. -/
  moved : ∀ (i : Nat) r, s.requests[i]? = some r →
    about i (movementLog config bypass limit es) =
      ledger (config.resolvePartition r.context) r.phase
  /-- The slot that a call holds or releases is one of the partition of its context. -/
  routed : ∀ (i : Nat) r, s.requests[i]? = some r →
    Routed (config.resolvePartition r.context) r.phase

theorem settled_counts {p : Nat} (settled : s.Settled) :
    s.requests.countP (fun r => reservingIn p r.phase) = 0 ∧
      s.requests.countP (fun r => releasingIn p r.phase) = 0 := by
  simp only [List.countP_eq_zero]
  constructor <;> intro r member <;> have here := settled r member <;>
    cases phase : r.phase <;> simp_all [Phase.settled, reservingIn, releasingIn]

/-- Whatever the calls, completions and cap changes and however they interleave, the
counters are in balance. -/
theorem counters_conserved
    (ran : run (step (limiter config bypass)) (initial config limit) es = some s) :
    Balanced config bypass limit es s := by
  have busy (p : Nat) : s.sub.busy p = (s.requests.countP fun r => outstandingIn p r.phase) +
      (s.requests.countP fun r => reservingIn p r.phase) +
      (s.requests.countP fun r => releasingIn p r.phase) := by
    rw [busy_eq ran p, countP_occupies]
    push_cast
    rfl
  refine ⟨busy, ?_, ?_, ?_, ?_, fun i r found => (run_ledger ran).each i r found,
    fun i r found => run_routed ran found⟩
  · intro p
    have := busy p
    omega
  · have := inflight_eq ran
    omega
  · rw [inflight_eq_sum ran]
    apply Finset.sum_le_sum
    intro p _
    have := busy p
    omega
  · intro settled
    rw [inflight_eq_sum ran]
    apply Finset.sum_congr rfl
    intro p _
    obtain ⟨noReserve, noRelease⟩ := settled_counts (p := p) settled
    rw [busy p, noReserve, noRelease]
    simp

/-- Two declared partitions; a context is the name of its partition. -/
def twoHalves : Config String :=
  .build [⟨"gold", .rat (1 / 2), 0⟩, ⟨"silver", .rat (1 / 2), 0⟩] [fun context => some context] 0 0

/-- One release and one acquire of the same partition, both half finished. -/
def overlap : List (Event String) :=
  [.tryAcquire "gold", .advance 0 {}, .advance 0 {}, .advance 0 {}, .advance 0 {},
    .advance 0 { addr := 7 }, .tryAcquire "gold", .advance 1 {}, .advance 1 {},
    .guard (.destroy 7), .advance 0 {}, .advance 1 {}]

theorem overlap_conserved : ∃ s,
    run (step (limiter twoHalves fun _ => false)) (initial twoHalves 2) overlap = some s ∧
    s.sub.busy 0 = 2 ∧ s.inflight = 0 ∧ Balanced twoHalves (fun _ => false) 2 overlap s := by
  obtain ⟨s, ran, busy, inflight⟩ : ∃ s,
      run (step (limiter twoHalves fun _ => false)) (initial twoHalves 2) overlap = some s ∧
      s.sub.busy 0 = 2 ∧ s.inflight = 0 := ⟨_, rfl, rfl, rfl⟩
  exact ⟨s, ran, busy, inflight, counters_conserved ran⟩
end Limen.AbstractPartitionedLimiter
