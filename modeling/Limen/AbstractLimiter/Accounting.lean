import Limen.AbstractLimiter.Steps

/-! Accounting of outcomes and samples, for every subclass that keeps the contract of
`DoAcquire`. The observer sees only the shared counters: whatever a step changes in them
it enters under the call that made the step. -/
namespace Limen.AbstractLimiter
open Transition
variable {Ctx σ π : Type}

def Phase.outstanding : Phase π → Bool
  | .admitted _ | .held _ | .decrementing _ => true
  | _ => false

theorem moves_inflight {gate : Gate Ctx σ π} {i : Nat} {c c' : Counters σ} {e : Event Ctx}
    {phase phase' : Phase π} (moved : Moves gate i c e phase c' phase') :
    c'.inflight + (if phase.outstanding then 1 else 0) =
      c.inflight + (if phase'.outstanding then 1 else 0) := by
  cases moved with
  | complete op call own limited => rfl
  | advance advanced =>
    rename_i input made
    cases phase <;> simp only [Phase.advance, Option.some.injEq, Prod.mk.injEq, reduceCtorEq]
      at advanced <;> obtain ⟨rfl, rfl, rfl⟩ := advanced
    case acquiring pc =>
      rcases acquired : gate.acquire c.limit c.toGauge pc input.spurious with ⟨gauge, progress⟩
      rcases progress with pc' | _ | result
      · simpa [Phase.outstanding, Progress.phase] using
          gate.keeps _ _ _ _ _ _ acquired (by simp)
      · simpa [Phase.outstanding, Progress.phase] using
          gate.keeps _ _ _ _ _ _ acquired (by simp)
      · simpa [Phase.outstanding, Progress.phase] using
          (gate.reserves _ _ _ _ _ _ acquired).1
    case counting call =>
      obtain ⟨id, slot, status⟩ := call
      cases status <;> rfl
    all_goals simp [Phase.outstanding, Counters.count]

namespace State
variable {l : Limiter Ctx σ π} {s t : State Ctx σ π} {limit : Int} {es : List (Event Ctx)}

/-- The in-flight counter is the number of calls between their increment and their
decrement. -/
theorem inflight_eq (ran : run (step l) (start l.gate limit) es = some s) :
    s.inflight = s.requests.countP fun r => r.phase.outstanding := by
  refine conserved (fun c => c.inflight) rfl ?_ moves_inflight ?_ ran
  · intro context
    rcases l.enter_phase context with phase | phase <;> simp [phase, Phase.outstanding]
  · rintro c c' ⟨changed, _⟩
    rw [changed]
end State

inductive Observation where
  | raised (inflight : Int)
  | counted (outcome : Status)
  | sampled (sample : Sample)
  deriving DecidableEq, Repr

def Observation.counts (outcome : Status) : Observation → Bool
  | .counted other => outcome = other
  | _ => false

def Observation.sample? : Observation → Option Sample
  | .sampled sample => some sample
  | _ => none

def statuses : List Status := [.success, .rejected, .dropped, .ignored, .bypassed]

def changes (c c' : Counters σ) : List Observation :=
  (if c.inflight < c'.inflight then [.raised c'.inflight] else []) ++
    (statuses.filter fun status => c.outcomeCounts status < c'.outcomeCounts status).map .counted ++
    (c'.samples.drop c.samples.length).map .sampled

theorem changes_gauge (c : Counters σ) (gauge : Gauge σ) :
    changes c { c with toGauge := gauge } =
      if c.inflight < gauge.inflight then [.raised gauge.inflight] else [] := by
  simp [changes]

theorem changes_count (c : Counters σ) (status : Status) :
    changes c (c.count status) = [.counted status] := by
  cases status <;> simp [changes, Counters.count, statuses, Function.update_apply]

theorem changes_sample (c : Counters σ) (sample : Sample) :
    changes c { c with samples := c.samples ++ [sample] } = [.sampled sample] := by
  simp [changes]

/-- An atomic operation of a call works on the gauge, on one outcome counter or on the
wrapped algorithm. -/
theorem advance_kind {gate : Gate Ctx σ π} {c c' : Counters σ} {input : Input}
    {phase phase' : Phase π} {made : Option (Slot Unit)}
    (advanced : phase.advance gate c input = some (c', phase', made)) :
    (∃ gauge, c' = { c with toGauge := gauge }) ∨ (∃ status, c' = c.count status) ∨
      ∃ sample, c' = { c with samples := c.samples ++ [sample] } := by
  cases phase <;> simp only [Phase.advance, Option.some.injEq, Prod.mk.injEq, reduceCtorEq]
    at advanced <;> obtain ⟨rfl, _, _⟩ := advanced
  case bypassing => exact .inr (.inl ⟨_, rfl⟩)
  case acquiring pc => exact .inl ⟨_, rfl⟩
  case rejecting => exact .inr (.inl ⟨_, rfl⟩)
  case admitted result => exact .inl ⟨c.toGauge, rfl⟩
  case decrementing call => exact .inl ⟨{ c.toGauge with inflight := c.inflight - 1 }, rfl⟩
  case releasingPartition call =>
    exact .inl ⟨{ c.toGauge with sub := gate.onReleasePartition _ c.sub }, rfl⟩
  case counting call => exact .inr (.inl ⟨_, rfl⟩)
  case sampling call => exact .inr (.inr ⟨_, rfl⟩)

theorem advance_limit {gate : Gate Ctx σ π} {c c' : Counters σ} {input : Input}
    {phase phase' : Phase π} {made : Option (Slot Unit)}
    (advanced : phase.advance gate c input = some (c', phase', made)) : c'.limit = c.limit := by
  rcases advance_kind advanced with ⟨gauge, rfl⟩ | ⟨status, rfl⟩ | ⟨sample, rfl⟩ <;> rfl

theorem counts_changes {gate : Gate Ctx σ π} {c c' : Counters σ} {input : Input}
    {phase phase' : Phase π} {made : Option (Slot Unit)}
    (advanced : phase.advance gate c input = some (c', phase', made)) (status : Status) :
    c'.outcomeCounts status =
      c.outcomeCounts status + (changes c c').countP (Observation.counts status) := by
  rcases advance_kind advanced with ⟨gauge, rfl⟩ | ⟨counted, rfl⟩ | ⟨sample, rfl⟩
  · rw [changes_gauge]
    split <;> simp [Observation.counts]
  · rw [changes_count, List.countP_singleton]
    by_cases same : status = counted
    · subst same
      simp [Counters.count, Observation.counts]
    · simp [Counters.count, Observation.counts, same]
  · simp [changes_sample, Observation.counts]

theorem samples_changes {gate : Gate Ctx σ π} {c c' : Counters σ} {input : Input}
    {phase phase' : Phase π} {made : Option (Slot Unit)}
    (advanced : phase.advance gate c input = some (c', phase', made)) :
    c'.samples = c.samples ++ (changes c c').filterMap Observation.sample? := by
  rcases advance_kind advanced with ⟨gauge, rfl⟩ | ⟨counted, rfl⟩ | ⟨sample, rfl⟩
  · rw [changes_gauge]
    split <;> simp [Observation.sample?]
  · rw [changes_count]
    simp [Observation.sample?, Counters.count]
  · simp [changes_sample, Observation.sample?]

/-- What the observer has seen of a call at each of its program points. -/
def Phase.Reports : Phase π → List Observation → Prop
  | .bypassing, seen | .acquiring _, seen | .rejecting, seen => seen = []
  | .rejected, seen => seen = [.counted .rejected]
  | .bypassed, seen => seen = [.counted .bypassed]
  | .admitted result, seen => seen = [.raised result.inflightPost]
  | .held slot, seen => seen = [.raised slot.inflightAtAcquire]
  | .decrementing call, seen | .releasingPartition call, seen | .counting call, seen =>
    seen = [.raised call.slot.inflightAtAcquire]
  | .sampling call, seen => call.status ≠ .ignored ∧
    seen = [.raised call.slot.inflightAtAcquire, .counted (toOutcomeStatus call.status)]
  | .completed call, seen => ∃ startTimeNs rttNs,
    seen = [.raised call.slot.inflightAtAcquire, .counted (toOutcomeStatus call.status)] ++
      if call.status = .ignored then [] else
        [.sampled ⟨startTimeNs, rttNs, call.slot.inflightAtAcquire, call.status = .dropped⟩]

theorem reports_advance {gate : Gate Ctx σ π} {c c' : Counters σ} {input : Input}
    {phase phase' : Phase π} {made : Option (Slot Unit)} {seen : List Observation}
    (reports : phase.Reports seen)
    (advanced : phase.advance gate c input = some (c', phase', made)) :
    phase'.Reports (seen ++ changes c c') := by
  cases phase <;> simp only [Phase.advance, Option.some.injEq, Prod.mk.injEq, reduceCtorEq]
    at advanced <;> obtain ⟨rfl, rfl, rfl⟩ := advanced <;> simp only [Phase.Reports] at reports
  case bypassing => simp [reports, changes_count, Phase.Reports]
  case acquiring pc =>
    subst reports
    rcases acquired : gate.acquire c.limit c.toGauge pc input.spurious with ⟨gauge, progress⟩
    rw [List.nil_append, changes_gauge]
    rcases progress with pc' | _ | result
    · have same := gate.keeps _ _ _ _ _ _ acquired (by simp)
      simp [same, Progress.phase, Phase.Reports]
    · have same := gate.keeps _ _ _ _ _ _ acquired (by simp)
      simp [same, Progress.phase, Phase.Reports]
    · obtain ⟨raised, post⟩ := gate.reserves _ _ _ _ _ _ acquired
      simp [raised, post, Progress.phase, Phase.Reports]
  case rejecting => simp [reports, changes_count, Phase.Reports]
  case admitted result =>
    have same := changes_gauge c c.toGauge
    simp only [lt_self_iff_false, if_false] at same
    simp [reports, same, Phase.Reports]
  case decrementing call =>
    have same := changes_gauge c { c.toGauge with inflight := c.inflight - 1 }
    rw [if_neg (by simp only [not_lt]; omega)] at same
    simp [reports, same, Phase.Reports]
  case releasingPartition call =>
    have same := changes_gauge c
      { c.toGauge with sub := gate.onReleasePartition call.slot.partitionIndex c.sub }
    simp only [lt_self_iff_false, if_false] at same
    simp [reports, same, Phase.Reports]
  case counting call =>
    subst reports
    obtain ⟨id, slot, status⟩ := call
    cases status <;> simp [changes_count, toOutcomeStatus, Phase.Reports]
  case sampling call =>
    obtain ⟨sampled, rfl⟩ := reports
    refine ⟨call.slot.startTimeNs, input.now - call.slot.startTimeNs, ?_⟩
    rw [if_neg sampled, changes_sample]
    obtain ⟨id, slot, status⟩ := call
    cases status <;> simp [toOutcomeStatus]

/-- No call is in progress, neither a `TryAcquire` nor a completion. -/
def Phase.settled : Phase π → Bool
  | .rejected | .bypassed | .held _ | .completed _ => true
  | _ => false

def calls (es : List (Event Ctx)) : Nat :=
  es.countP fun e => match e with
    | .tryAcquire _ => true
    | _ => false

namespace State
variable {l : Limiter Ctx σ π} {s t : State Ctx σ π} {limit : Int} {es : List (Event Ctx)}

def Settled (s : State Ctx σ π) : Prop := ∀ r ∈ s.requests, r.phase.settled

/-- The non-bypassed slots that some guard still has to complete. -/
def outstandingSlots (s : State Ctx σ π) : Set Nat :=
  {i | ∃ slot, slot.bypassed = false ∧ s.heap.owners.Holds i slot}

/-- The journal of a run: what the calls have changed in the shared counters. -/
def journal (l : Limiter Ctx σ π) (limit : Int) (es : List (Event Ctx)) :
    List (Nat × Observation) := log l limit (fun c c' _ => changes c c') es

theorem run_reports (ran : run (step l) (start l.gate limit) es = some s) :
    Credited (fun r seen => r.phase.Reports seen) (journal l limit es) s := by
  refine run_credited ?_ ?_ ?_ ran
  · intro context
    rcases l.enter_phase context with phase | phase <;> rw [phase] <;> rfl
  · intro before s i r input c phase made seen _ _ _ advanced reports
    exact reports_advance reports advanced
  · intro r call seen atHeld reports
    rwa [atHeld] at reports

/-- The counters are the sum of what the journal has entered under the calls. -/
structure Audited (entries : List (Nat × Observation)) (s : State Ctx σ π) : Prop where
  counts : ∀ status, s.outcomeCounts status = entries.countP fun entry => entry.2.counts status
  samples : s.samples = entries.filterMap fun entry => entry.2.sample?

theorem audited_step {e : Event Ctx} {entries : List (Nat × Observation)} (valid : s.Valid)
    (audited : Audited entries s) (stepped : s.step l e = some t) :
    Audited (entries ++ credit (fun c c' _ => changes c c') s e t) t := by
  have unchanged (other : ∀ i input, e ≠ .advance i input)
      (counts : t.outcomeCounts = s.outcomeCounts) (samples : t.samples = s.samples) :
      Audited (entries ++ credit (fun c c' _ => changes c c') s e t) t := by
    rw [credit_other other, List.append_nil]
    exact ⟨by rw [counts]; exact audited.counts, by rw [samples]; exact audited.samples⟩
  rcases step_cases valid stepped with
    ⟨context, rfl, same, _⟩ | ⟨i, r, phase, found, moved, requests⟩ | ⟨other, _, _, changed, _⟩
  · exact unchanged (by simp) (by rw [same]) (by rw [same])
  · rcases moved.cases with ⟨input, made, rfl, advanced⟩ | ⟨op, call, rfl, _, _, same, _⟩
    · rw [credit_advance found requests]
      constructor
      · intro status
        simp only [List.countP_append, List.countP_map, Function.comp_def,
          ← audited.counts status]
        exact counts_changes advanced status
      · simp only [List.filterMap_append, List.filterMap_map, Function.comp_def,
          ← audited.samples]
        exact samples_changes advanced
    · exact unchanged (by simp) (by rw [same]) (by rw [same])
  · exact unchanged other (by rw [changed]) (by rw [changed])

theorem run_audited (ran : run (step l) (start l.gate limit) es = some s) :
    Audited (journal l limit es) s := by
  refine history (P := fun es s => Audited (journal l limit es) s) ⟨fun _ => rfl, rfl⟩ ?_ ran
  intro es s e t before audited stepped
  rw [journal, log_concat before stepped]
  exact audited_step (run_valid before) audited stepped

theorem length_requests (ran : run (step l) (start l.gate limit) es = some s) :
    s.requests.length = calls es := by
  refine history (P := fun es s => s.requests.length = calls es) rfl ?_ ran
  intro es s e t before counted stepped
  rw [calls, Pool.countP_concat, ← calls, ← counted]
  rcases step_cases (run_valid before) stepped with
    ⟨context, rfl, _, requests⟩ | ⟨i, r, phase, _, moved, requests⟩ | ⟨_, other, requests, _⟩
  · rw [requests, List.length_append]
    rfl
  · rw [requests, List.length_modify]
    cases e with
    | tryAcquire context => cases moved
    | _ => rfl
  · rw [requests]
    cases e with
    | tryAcquire context => exact absurd rfl (other context)
    | _ => rfl

theorem mem_outstandingSlots (valid : s.Valid) (i : Nat) :
    i ∈ s.outstandingSlots ↔ ∃ r slot, s.requests[i]? = some r ∧ r.phase = .held slot := by
  constructor
  · rintro ⟨slot, limited, held⟩
    obtain ⟨r, found, slotted⟩ := valid.owned i slot held
    refine ⟨r, slot, found, ?_⟩
    cases phase : r.phase <;> simp [phase, Phase.slot?] at slotted
    case bypassed =>
      rw [← slotted] at limited
      contradiction
    case held other => rw [slotted]
  · rintro ⟨r, slot, found, atHeld⟩
    obtain ⟨limited, held⟩ := valid.owns i r slot found atHeld
    exact ⟨slot, limited, held⟩
end State

/-- The complete account of a call that is not in progress: what it has contributed to the
outcome counters, `none` for an outstanding slot, and all that the observer saw of it. -/
inductive Account : Option Status → List Observation → Prop
  | rejected : Account (some .rejected) [.counted .rejected]
  | bypassed : Account (some .bypassed) [.counted .bypassed]
  | outstanding (inflight : Int) : Account none [.raised inflight]
  | ignored (inflight : Int) : Account (some .ignored) [.raised inflight, .counted .ignored]
  | success (inflight startTimeNs rttNs : Int) : Account (some .success)
      [.raised inflight, .counted .success, .sampled ⟨startTimeNs, rttNs, inflight, false⟩]
  | dropped (inflight startTimeNs rttNs : Int) : Account (some .dropped)
      [.raised inflight, .counted .dropped, .sampled ⟨startTimeNs, rttNs, inflight, true⟩]

theorem account_of_reports {phase : Phase π} {seen : List Observation}
    (settled : phase.settled) (reports : phase.Reports seen) :
    ∃ outcome, Account outcome seen ∧ (outcome = none ↔ ∃ slot, phase = .held slot) := by
  cases phase <;> simp only [Phase.settled, Bool.false_eq_true] at settled
  case rejected =>
    cases reports
    exact ⟨_, .rejected, by simp⟩
  case bypassed =>
    cases reports
    exact ⟨_, .bypassed, by simp⟩
  case held slot =>
    cases reports
    exact ⟨_, .outstanding _, by simp⟩
  case completed call =>
    obtain ⟨startTimeNs, rttNs, rfl⟩ := reports
    obtain ⟨id, slot, status⟩ := call
    cases status
    · exact ⟨_, .success slot.inflightAtAcquire startTimeNs rttNs, by simp⟩
    · exact ⟨_, .ignored slot.inflightAtAcquire, by simp⟩
    · exact ⟨_, .dropped slot.inflightAtAcquire startTimeNs rttNs, by simp⟩

/-- The counter that a call has been entered in. -/
def Phase.outcome : Phase π → Option Status
  | .rejected => some .rejected
  | .bypassed => some .bypassed
  | .sampling call | .completed call => some (toOutcomeStatus call.status)
  | _ => none

def Phase.isHeld : Phase π → Bool
  | .held _ => true
  | _ => false

theorem moves_outcome {gate : Gate Ctx σ π} {i : Nat} {c c' : Counters σ} {e : Event Ctx}
    {phase phase' : Phase π} (moved : Moves gate i c e phase c' phase') (status : Status) :
    (c'.outcomeCounts status : Int) + (if phase.outcome = some status then 1 else 0) =
      c.outcomeCounts status + (if phase'.outcome = some status then 1 else 0) := by
  have counted (other : Status) : ((c.count other).outcomeCounts status : Int) =
      c.outcomeCounts status + (if some other = some status then 1 else 0) := by
    by_cases same : other = status
    · subst same
      simp [Counters.count]
    · simp [Counters.count, same, Ne.symm same]
  cases moved with
  | complete op call own limited => rfl
  | advance advanced =>
    rename_i input made
    cases phase <;> simp only [Phase.advance, Option.some.injEq, Prod.mk.injEq, reduceCtorEq]
      at advanced <;> obtain ⟨rfl, rfl, rfl⟩ := advanced
    case acquiring pc =>
      rcases (gate.acquire c.limit c.toGauge pc input.spurious).2 with pc' | _ | result <;> rfl
    case counting call =>
      obtain ⟨id, slot, status'⟩ := call
      cases status' <;> simp [Phase.outcome, counted, toOutcomeStatus]
    all_goals simp [Phase.outcome, counted]

namespace State
variable {l : Limiter Ctx σ π} {s t : State Ctx σ π} {limit : Int} {es : List (Event Ctx)}

theorem outcomeCounts_eq (ran : run (step l) (start l.gate limit) es = some s) (status : Status) :
    s.outcomeCounts status = s.requests.countP fun r => r.phase.outcome = some status := by
  have balanced : (s.outcomeCounts status : Int) =
      s.requests.countP fun r => r.phase.outcome = some status :=
    conserved (fun c => c.outcomeCounts status) rfl ?_ ?_ ?_ ran
  · exact_mod_cast balanced
  · intro context
    rcases l.enter_phase context with phase | phase <;> simp [phase, Phase.outcome]
  · intro i r c e c' phase moved
    change _ + (if decide (r.phase.outcome = some status) then 1 else 0) =
      _ + (if decide (phase.outcome = some status) then 1 else 0)
    simpa only [decide_eq_true_eq] using moves_outcome moved status
  · rintro c c' ⟨changed, _⟩
    rw [changed]

/-- A settled call is outstanding or counted once. -/
theorem length_of_settled {requests : List (Request Ctx π)}
    (settled : ∀ r ∈ requests, r.phase.settled) :
    requests.length =
      (statuses.map fun status => requests.countP fun r => r.phase.outcome = some status).sum +
        requests.countP fun r => r.phase.isHeld := by
  induction requests with
  | nil => rfl
  | cons r rest ih =>
    have here := settled r List.mem_cons_self
    have tail := ih fun r' member => settled r' (List.mem_cons_of_mem r member)
    simp only [statuses, List.map_cons, List.map_nil, List.sum_cons, List.sum_nil,
      List.countP_cons, List.length_cons] at tail ⊢
    have once : (if (r.phase.outcome = some .success : Bool) then 1 else 0) +
        (if (r.phase.outcome = some .rejected : Bool) then 1 else 0) +
        (if (r.phase.outcome = some .dropped : Bool) then 1 else 0) +
        (if (r.phase.outcome = some .ignored : Bool) then 1 else 0) +
        (if (r.phase.outcome = some .bypassed : Bool) then 1 else 0) +
        (if r.phase.isHeld then 1 else 0) = 1 := by
      cases phase : r.phase <;> simp only [phase, Phase.settled, Bool.false_eq_true] at here <;>
        try rfl
      case completed call =>
        obtain ⟨id, slot, status⟩ := call
        cases status <;> rfl
    omega

theorem ncard_outstandingSlots (valid : s.Valid) :
    s.outstandingSlots.ncard = s.requests.countP fun r => r.phase.isHeld := by
  rw [← Pool.ncard_positions]
  congr 1
  ext i
  rw [mem_outstandingSlots valid]
  constructor
  · rintro ⟨r, slot, found, atHeld⟩
    exact ⟨r, found, by rw [atHeld]; rfl⟩
  · rintro ⟨r, found, isHeld⟩
    cases phase : r.phase <;> simp [phase, Phase.isHeld] at isHeld
    exact ⟨r, _, found, phase⟩

/-- The books of a run. The counters hold what the calls were seen to contribute and the
algorithm received what they were seen to send; and whenever no call is in progress, each
call has one complete account and all of them add up. -/
structure Accounted (l : Limiter Ctx σ π) (limit : Int) (es : List (Event Ctx))
    (s : State Ctx σ π) : Prop where
  counts : ∀ status, s.outcomeCounts status =
    (journal l limit es).countP fun entry => entry.2.counts status
  samples : s.samples = (journal l limit es).filterMap fun entry => entry.2.sample?
  known : ∀ entry ∈ journal l limit es, entry.1 < calls es
  each : s.Settled → ∀ i < calls es, ∃ outcome, Account outcome (about i (journal l limit es)) ∧
    (outcome = none ↔ i ∈ s.outstandingSlots)
  total : s.Settled →
    calls es = (statuses.map s.outcomeCounts).sum + s.outstandingSlots.ncard

theorem run_accounted (ran : run (step l) (start l.gate limit) es = some s) :
    Accounted l limit es s := by
  have audited := run_audited ran
  have reported := run_reports ran
  have valid := run_valid ran
  have length := length_requests ran
  refine ⟨audited.counts, audited.samples, ?_, ?_, ?_⟩
  · intro entry member
    by_contra beyond
    have nothing := reported.unseen entry.1 (by omega)
    have seen : entry.2 ∈ about entry.1 (journal l limit es) := mem_about.mpr member
    rw [nothing] at seen
    contradiction
  · intro settled i small
    have found := List.getElem?_eq_getElem (l := s.requests) (i := i) (by omega)
    have reports := reported.each i _ found
    obtain ⟨outcome, account, held⟩ :=
      account_of_reports (settled _ (List.getElem_mem _)) reports
    refine ⟨outcome, account, held.trans ?_⟩
    rw [mem_outstandingSlots valid]
    simp [found]
  · intro settled
    rw [← length, length_of_settled settled, ncard_outstandingSlots valid,
      funext (outcomeCounts_eq ran)]
end State
end Limen.AbstractLimiter
