import Limen.AbstractLimiter.Accounting
import Limen.SimpleLimiter

/-! Whole calls on a `SimpleLimiter` as single steps, for callers that treat it as one
atomic object, and the atomic operations that make them up. -/
namespace Limen.SimpleLimiter
open AbstractLimiter AbstractLimiter.State Transition
variable {Ctx : Type} {bypass : Ctx → Bool}

def tryAcquire (bypass : Ctx → Bool) (c : Counters Unit) (context : Ctx) (now : Int) :
    Counters Unit × Option (Slot Unit) :=
  if bypass context then (c.count .bypassed, some bypassSlot)
  else if c.inflight ≥ c.limit then (c.count .rejected, none)
  else ({ c with inflight := c.inflight + 1 }, some ⟨(), now, c.inflight + 1, false, -1⟩)

def onSlotComplete (c : Counters Unit) (slot : Slot Unit) (status : CompletionStatus) (now : Int) :
    Counters Unit :=
  if slot.bypassed then c
  else
    let outcome := toOutcomeStatus status
    let counted := { c with inflight := c.inflight - 1 }.count outcome
    if outcome = .success ∨ outcome = .dropped then
      { counted with samples := counted.samples ++
        [⟨slot.startTimeNs, now - slot.startTimeNs, slot.inflightAtAcquire, outcome = .dropped⟩] }
    else counted

theorem tryAcquire_cases {c c' : Counters Unit} {context : Ctx} {now : Int}
    {admitted : Option (Slot Unit)} (tried : tryAcquire bypass c context now = (c', admitted)) :
    c'.limit = c.limit ∧
      ((bypass context = true ∧ admitted = some bypassSlot ∧ c'.inflight = c.inflight) ∨
        (bypass context = false ∧ admitted = none ∧ c.limit ≤ c.inflight ∧
          c'.inflight = c.inflight) ∨
        ∃ slot, bypass context = false ∧ admitted = some slot ∧ slot.bypassed = false ∧
          c.inflight < c.limit ∧ c'.inflight = c.inflight + 1) := by
  unfold tryAcquire at tried
  split at tried
  · rename_i bypassed
    cases tried
    exact ⟨rfl, .inl ⟨bypassed, rfl, rfl⟩⟩
  · rename_i limited
    rw [Bool.not_eq_true] at limited
    split at tried
    · rename_i full
      cases tried
      exact ⟨rfl, .inr (.inl ⟨limited, rfl, full, rfl⟩)⟩
    · rename_i free
      cases tried
      exact ⟨rfl, .inr (.inr ⟨_, limited, rfl, rfl, Int.not_le.mp free, rfl⟩)⟩

theorem onSlotComplete_limit (c : Counters Unit) (slot : Slot Unit) (status : CompletionStatus)
    (now : Int) : (onSlotComplete c slot status now).limit = c.limit := by
  simp only [onSlotComplete]
  split
  · rfl
  · split <;> rfl

theorem onSlotComplete_inflight (c : Counters Unit) (slot : Slot Unit) (status : CompletionStatus)
    (now : Int) : (onSlotComplete c slot status now).inflight =
      c.inflight - if slot.bypassed then 0 else 1 := by
  simp only [onSlotComplete]
  split
  · exact (Int.sub_zero _).symm
  · split <;> rfl

/-- A call that nobody disturbs does, by its own atomic operations, what `tryAcquire` says. -/
theorem run_tryAcquire (s : State Ctx Unit Pc) (context : Ctx) (now : Int) {addr : Nat}
    (free : s.heap addr = none) : ∃ operations phase t,
      (∀ e ∈ operations, e = .advance s.requests.length ⟨false, now, addr⟩) ∧
      run (step (limiter bypass)) s (.tryAcquire context :: operations) = some t ∧
      t.toCounters = (tryAcquire bypass s.toCounters context now).1 ∧
      t.requests = s.requests ++ [⟨context, phase⟩] ∧ phase.settled ∧
      phase.slot? = (tryAcquire bypass s.toCounters context now).2 := by
  obtain ⟨c, publishing, requests, heap⟩ := s
  let operation : Event Ctx := .advance requests.length ⟨false, now, addr⟩
  have made (slot : Slot Unit) :
      ∃ heap', heap.construct addr requests.length (some slot) = some heap' := by
    simp only [Heap.construct, Heap.make, show heap addr = none from free]
    exact ⟨_, rfl⟩
  by_cases bypassed : bypass context
  · have entered : step (limiter bypass) ⟨c, publishing, requests, heap⟩ (.tryAcquire context) =
        some ⟨c, publishing, requests ++ [⟨context, .bypassing⟩], heap⟩ := by
      simp [step, limiter, bypassed]
    obtain ⟨heap', constructed⟩ := made bypassSlot
    refine ⟨[operation], .bypassed, ⟨c.count .bypassed, publishing, _, heap'⟩, by simp [operation],
      ?_, ?_, rfl, rfl, ?_⟩
    · simp [run, entered, operation, step_last, Phase.advance, constructed]
    · simp [tryAcquire, bypassed]
    · simp [tryAcquire, bypassed, Phase.slot?]
  · have entered : step (limiter bypass) ⟨c, publishing, requests, heap⟩ (.tryAcquire context) =
        some ⟨c, publishing, requests ++ [⟨context, .acquiring .load⟩], heap⟩ := by
      simp [step, limiter, bypassed, gate]
    have acquire : (limiter bypass).gate.acquire = doAcquire := rfl
    by_cases full : c.limit ≤ c.inflight
    · refine ⟨[operation, operation, operation], .rejected,
        ⟨c.count .rejected, publishing, _, heap⟩, by simp [operation], ?_, ?_, rfl, rfl, ?_⟩
      · simp [run, entered, operation, step_last, Phase.advance, acquire, doAcquire, full,
          Progress.phase, Heap.construct]
      · simp [tryAcquire, bypassed, full]
      · simp [tryAcquire, bypassed, full, Phase.slot?]
    · obtain ⟨heap', constructed⟩ := made ⟨(), now, c.inflight + 1, false, -1⟩
      refine ⟨[operation, operation, operation, operation],
        .held ⟨(), now, c.inflight + 1, false, -1⟩,
        ⟨{ c with inflight := c.inflight + 1 }, publishing, _, heap'⟩, by simp [operation], ?_, ?_,
        rfl, rfl, ?_⟩
      · have constructNone : heap.construct addr requests.length none = some heap := rfl
        simp [run, entered, operation, step_last, Phase.advance, acquire, doAcquire, full,
          Progress.phase, constructed, constructNone]
      · simp [tryAcquire, bypassed, full]
      · simp [tryAcquire, bypassed, full, Phase.slot?]

/-- Left alone, a call comes from one point to another without constructing a guard. -/
inductive Leads (Ctx : Type) (input : Input) :
    Counters Unit → Phase Pc → Counters Unit → Phase Pc → Prop
  | refl (c : Counters Unit) (phase : Phase Pc) : Leads Ctx input c phase c phase
  | step {c c' c'' : Counters Unit} {phase phase' phase'' : Phase Pc}
      (advanced : phase.advance (gate Ctx) c input = some (c', phase', none))
      (rest : Leads Ctx input c' phase' c'' phase'') : Leads Ctx input c phase c'' phase''

theorem run_of_leads {input : Input} {i : Nat} {c c' : Counters Unit} {phase phase' : Phase Pc}
    (leads : Leads Ctx input c phase c' phase') {s : State Ctx Unit Pc} {context : Ctx}
    (counters : s.toCounters = c) (found : s.requests[i]? = some ⟨context, phase⟩) :
    ∃ operations, (∀ e ∈ operations, e = .advance i input) ∧
      run (step (limiter bypass)) s operations =
        some { s with toCounters := c', requests := s.requests.modify i (.moveTo phase') } := by
  induction leads generalizing s with
  | refl c phase =>
    refine ⟨[], by simp, ?_⟩
    rw [Pool.modify_of_fixed found rfl, ← counters]
    rfl
  | @step c c' c'' phase phase' phase'' advanced rest ih =>
    have first : s.step (limiter bypass) (.advance i input) =
        some { s with toCounters := c', requests := s.requests.modify i (.moveTo phase') } := by
      rw [← counters] at advanced
      have gated : phase.advance (limiter bypass).gate s.toCounters input =
          some (c', phase', none) := advanced
      simp only [State.step, found, gated, Option.bind_eq_bind, Option.bind_some, Heap.construct]
    obtain ⟨operations, own, ran⟩ := ih
      (s := { s with toCounters := c', requests := s.requests.modify i (.moveTo phase') })
      rfl (Pool.getElem?_modify_self (Request.moveTo phase') found)
    refine ⟨.advance i input :: operations, ?_, run_cons_eq_some.mpr ⟨_, first, ran.trans ?_⟩⟩
    · intro e member
      rcases List.mem_cons.mp member with rfl | member
      · rfl
      · exact own e member
    · rw [List.modify_modify_eq]
      rfl

/-- A completion that nobody disturbs does, by its own atomic operations, what
`onSlotComplete` says. -/
theorem run_onSlotComplete {s : State Ctx Unit Pc} {i : Nat} {context : Ctx}
    {call : Completion Unit} (input : Input) (limited : call.slot.bypassed = false)
    (found : s.requests[i]? = some ⟨context, .decrementing call⟩) :
    ∃ operations, (∀ e ∈ operations, e = .advance i input) ∧
      run (step (limiter bypass)) s operations = some { s with
        toCounters := onSlotComplete s.toCounters call.slot call.status input.now,
        requests := s.requests.modify i (.moveTo (.completed call)) } := by
  refine run_of_leads ?_ rfl found
  obtain ⟨id, slot, status⟩ := call
  have released : ∀ c' phase', Leads Ctx input
      ({ s.toCounters with inflight := s.inflight - 1 }.count (toOutcomeStatus status))
      (if toOutcomeStatus status = .success ∨ toOutcomeStatus status = .dropped then
        .sampling ⟨id, slot, status⟩ else .completed ⟨id, slot, status⟩) c' phase' →
      Leads Ctx input s.toCounters (.decrementing ⟨id, slot, status⟩) c' phase' :=
    fun c' phase' rest => .step rfl (.step rfl (.step rfl rest))
  apply released _ _
  dsimp only at limited
  cases status with
  | ignored =>
    simp only [onSlotComplete, limited, toOutcomeStatus]
    exact .refl _ _
  | success =>
    simp only [onSlotComplete, limited, toOutcomeStatus]
    exact .step rfl (.refl _ _)
  | dropped =>
    simp only [onSlotComplete, limited, toOutcomeStatus]
    exact .step rfl (.refl _ _)
end Limen.SimpleLimiter
