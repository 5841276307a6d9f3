import Limen.BlockingLimiter.Fifo
import Limen.BlockingLimiter.HandOff
import Limen.BlockingLimiter.Wakeup

/-! The outcomes that a `SimpleLimiter` under a blocking limiter counts. It counts its own
decisions: a caller that parks has been rejected once, whatever becomes of it, and every
`Unblock` that the delegate stops is one rejection more. -/
namespace Limen.BlockingLimiter
open Transition WaitingLine
open AbstractLimiter (Counters Status toOutcomeStatus)
variable {Ctx : Type} {bypass : Ctx → Bool} {discipline : Discipline}

section Simple
variable {c c' : Counters Unit} {context : Ctx} {now : Int}

theorem refused_counts (refused : (simpleDelegate bypass).tryAcquire c context now = (c', none))
    (outcome : Status) :
    c'.outcomeCounts outcome = c.outcomeCounts outcome + if outcome = .rejected then 1 else 0 := by
  simp only [simpleDelegate, SimpleLimiter.tryAcquire] at refused
  split at refused
  · cases refused
  · split at refused
    · cases refused
      by_cases here : outcome = .rejected <;> simp [Counters.count, here]
    · cases refused

theorem admitted_counts {slot : Slot Unit}
    (admitted : (simpleDelegate bypass).tryAcquire c context now = (c', some slot))
    (outcome : Status) : c'.outcomeCounts outcome =
      c.outcomeCounts outcome + if outcome = .bypassed ∧ slot.bypassed then 1 else 0 := by
  simp only [simpleDelegate, SimpleLimiter.tryAcquire] at admitted
  split at admitted
  · cases admitted
    by_cases here : outcome = .bypassed <;> simp [Counters.count, AbstractLimiter.bypassSlot, here]
  · split at admitted
    · cases admitted
    · cases admitted
      simp

theorem complete_counts (s : Shared (Counters Unit)) (inner : Grant) (status : CompletionStatus)
    (outcome : Status) :
    (s.complete (simpleDelegate bypass) inner status now).delegate.outcomeCounts outcome =
      s.delegate.outcomeCounts outcome +
        if outcome = toOutcomeStatus status ∧ inner.slot.bypassed = false then 1 else 0 := by
  simp only [Shared.complete, simpleDelegate, SimpleLimiter.onSlotComplete]
  split
  · rename_i bypassed
    simp [bypassed]
  · rename_i charged
    by_cases here : outcome = toOutcomeStatus status
    · split <;> simp [Counters.count, here, charged]
    · split <;> simp [Counters.count, here]
end Simple

/-- The slot that the call was granted, be it completed or not. -/
def Phase.admission? : Phase → Option Grant
  | .numbering inner | .registering _ inner => some inner
  | .waiting waiter | .awake waiter => waiter.slot
  | .held _ admission | .extracting _ admission _ | .mirroring _ admission _
  | .unblocking admission _ | .completed admission _ => some admission
  | .trying | .parking | .refused => none

/-- The delegate has refused the call, and the call has no slot. -/
def Phase.turnedDown : Phase → Bool
  | .parking | .refused => true
  | .waiting waiter | .awake waiter => waiter.slot.isNone
  | .trying | .numbering _ | .registering _ _ | .held _ _ | .extracting _ _ _ | .mirroring _ _ _
  | .unblocking _ _ | .completed _ _ => false

/-- The call is parked and has no slot. -/
def Phase.unserved (phase : Phase) : Bool := phase.waiter?.any fun waiter => waiter.slot.isNone

/-- A completion with this status has been mirrored onto a slot that the delegate counts. -/
def Phase.settled (status : CompletionStatus) (phase : Phase) : Bool :=
  phase.mirrored?.any fun settled => settled.2.status = status && settled.1.charged

/-- Under which outcome the delegate has counted the call, as far as the call tells. -/
def Phase.tally : Status → Phase → Bool
  | .rejected, phase => phase.turnedDown
  | .bypassed, phase => phase.admission?.any fun inner => inner.slot.bypassed
  | .success, phase => phase.settled .success
  | .ignored, phase => phase.settled .ignored
  | .dropped, phase => phase.settled .dropped

/-- A step of a call changes the counters as it changes what the call tells of them. The
completions need the id to be the call's own. -/
theorem Moves.tally {i : Nat} {context : Ctx} {s s' : Shared (Counters Unit)} {input : Input}
    {phase next : Phase} {made : Option (Slot Unit)} {outcome : Status}
    (intact : outcome = .rejected ∨ outcome = .bypassed ∨ (phase.Kept s ∧
      ∀ ticket inner, phase = .registering ticket inner → s.activeSlots (slotId ticket) = none))
    (moved : Moves (simpleDelegate bypass) discipline i context s input phase s' next made) :
    s'.delegate.outcomeCounts outcome + (phase.tally outcome).toNat =
      s.delegate.outcomeCounts outcome + (next.tally outcome).toNat := by
  cases moved with
  | @admitted delegate slot tried =>
    rw [admitted_counts tried]
    cases outcome <;> cases bypassed : slot.bypassed <;>
      simp [Phase.tally, Phase.admission?, Phase.turnedDown, Phase.settled, Phase.mirrored?, bypassed]
  | rejected tried =>
    rw [refused_counts tried]
    cases outcome <;> rfl
  | numbered | registered =>
    cases outcome <;> rfl
  | @collided ticket inner other taken =>
    rw [complete_counts]
    rcases intact with rfl | rfl | ⟨_, free⟩
    · rfl
    · rfl
    · rw [free ticket inner rfl] at taken
      contradiction
  | turnedAway | woken =>
    cases outcome <;> rfl
  | parked =>
    cases outcome <;> rfl
  | @delivered waiter inner slot =>
    have same : (Phase.awake waiter).tally outcome = (Phase.numbering inner).tally outcome := by
      cases outcome <;>
        simp [Phase.tally, Phase.admission?, Phase.turnedDown, Phase.settled, Phase.mirrored?, slot]
    rw [same]
  | timedOut empty =>
    cases outcome <;> simp [Phase.tally, Phase.admission?, Phase.turnedDown, Phase.settled,
      Phase.mirrored?, empty]
  | extracted =>
    cases outcome <;> rfl
  | missing admission call =>
    rcases intact with rfl | rfl | ⟨kept, _⟩
    · rfl
    · rfl
    · contradiction
  | mirrored inner admission call =>
    rw [complete_counts]
    rcases intact with rfl | rfl | ⟨kept, _⟩
    · cases call.status <;> rfl
    · cases call.status <;> rfl
    · have same : some inner = some admission := kept
      cases same
      cases outcome <;> cases here : call.status <;> cases bypassed : inner.slot.bypassed <;>
        simp [Phase.tally, Phase.admission?, Phase.turnedDown, Phase.settled, Phase.mirrored?, here,
          toOutcomeStatus, Grant.charged, bypassed]

/-- Before the delivery a waiter tells of its rejection, after it only of a bypass. -/
theorem deliver_tally {phase : Phase} {waiter : WaiterSlot} (waits : phase.waiter? = some waiter)
    (empty : waiter.slot = none) (inner : Grant) (outcome : Status) :
    ((phase.deliver inner).tally outcome).toNat + (if outcome = .rejected then 1 else 0) =
      (phase.tally outcome).toNat +
        (if outcome = .bypassed ∧ inner.slot.bypassed then 1 else 0) := by
  cases phase <;> simp only [Phase.waiter?, Option.some.injEq, reduceCtorEq] at waits
  all_goals
    subst waits
    cases outcome <;> cases bypassed : inner.slot.bypassed <;>
      simp [Phase.deliver, Phase.tally, Phase.turnedDown, Phase.admission?, Phase.settled,
        Phase.mirrored?, empty, bypassed]

/-- The waiter in front when the delegate stops `Unblock`. -/
def stoppedAt {δ : Type} (d : Delegate Ctx δ) (now : Nat → Int) :
    List Nat → State Ctx δ → Option Nat
  | [], _ => none
  | w :: rest, s =>
    match s.requests[w]? with
    | none => none
    | some r =>
      match d.tryAcquire s.delegate r.context (now rest.length) with
      | (_, none) => some w
      | (delegate, some slot) => stoppedAt d now rest (s.handOff w rest delegate slot)

namespace State

/-- The refusals of `Unblock` along a run, by the waiter on whose behalf it asked. -/
def refusals {δ : Type} (d : Delegate Ctx δ) (s : State Ctx δ) (e : Event Ctx) (_ : State Ctx δ) :
    List Nat :=
  match e with
  | .advance i input =>
    match s.requests[i]? with
    | some ⟨_, .unblocking _ _⟩ => (stoppedAt d input.now s.queue s).toList
    | _ => []
  | _ => []

def retries {δ : Type} (d : Delegate Ctx δ) (discipline : Discipline) (delegate : δ)
    (es : List (Event Ctx)) : List Nat :=
  observe (step d discipline) (refusals d) (start delegate) es

variable {s t : State Ctx (Counters Unit)} {e : Event Ctx}

/-- What the calls tell of an outcome. -/
def tally (outcome : Status) (s : State Ctx (Counters Unit)) : Nat :=
  s.requests.countP fun r => r.phase.tally outcome

theorem tally_modify {i : Nat} {r : Request Ctx} {f : Request Ctx → Request Ctx} (outcome : Status)
    (found : s.requests[i]? = some r) (requests : t.requests = s.requests.modify i f) :
    t.tally outcome + (r.phase.tally outcome).toNat =
      s.tally outcome + ((f r).phase.tally outcome).toNat := by
  have counts := Pool.countP_modify (fun r => r.phase.tally outcome) f found
  rw [← requests] at counts
  cases before : r.phase.tally outcome <;> cases after : (f r).phase.tally outcome <;>
    simpa [tally, before, after] using counts

/-- `Unblock` turns what a waiter tells of its rejection into a hand-off, and ends with at
most one rejection more. -/
theorem unblock_tally (bypass : Ctx → Bool) (outcome : Status) (now : Nat → Int) {queue : List Nat}
    (same : s.queue = queue) (valid : s.Valid) :
    (unblock (simpleDelegate bypass) now queue s).delegate.outcomeCounts outcome + s.tally outcome =
      s.delegate.outcomeCounts outcome + (unblock (simpleDelegate bypass) now queue s).tally outcome +
        if outcome = .rejected then (handedOver (simpleDelegate bypass) now queue s).length +
          (stoppedAt (simpleDelegate bypass) now queue s).toList.length else 0 := by
  induction queue generalizing s with
  | nil => simp [unblock, handedOver, stoppedAt]
  | cons w rest ih =>
    obtain ⟨r, waiter, found, waits, empty⟩ := valid.queued w (by simp [same])
    simp only [unblock, handedOver, stoppedAt, found]
    rcases tried : (simpleDelegate bypass).tryAcquire s.delegate r.context (now rest.length) with
      ⟨delegate, _ | slot⟩
    · dsimp only
      rw [refused_counts tried]
      have still : tally outcome { s with delegate } = s.tally outcome := rfl
      rw [still]
      split
      · simp
        omega
      · simp
    · have later := ih (s := s.handOff w rest delegate slot) rfl (valid_handOff valid same found)
      have here : (s.handOff w rest delegate slot).tally outcome + _ = s.tally outcome + _ :=
        tally_modify outcome found rfl
      have counts : (s.handOff w rest delegate slot).delegate.outcomeCounts outcome = _ :=
        admitted_counts tried outcome
      have told := deliver_tally waits empty ⟨s.granted, slot⟩ outcome
      simp only [Request.deliver, Request.moveTo] at here
      by_cases rejected : outcome = .rejected
      · simp only [rejected, if_true, List.length_cons] at *
        omega
      · simp only [rejected, if_false] at *
        omega

/-- An outcome is counted for the calls that tell of it; a rejection also for every hand-off
and every refusal of `Unblock`. -/
def Tallied (outcome : Status) (entries : List (Turn Nat)) (refused : List Nat)
    (s : State Ctx (Counters Unit)) : Prop :=
  s.delegate.outcomeCounts outcome = s.tally outcome +
    if outcome = .rejected then (deliveries entries).length + refused.length else 0

theorem tallied_relabel {outcome : Status} {entries : List (Turn Nat)} {refused : List Nat} {i : Nat}
    {r : Request Ctx} {f : Request Ctx → Request Ctx} (tallied : Tallied outcome entries refused s)
    (found : s.requests[i]? = some r) (requests : t.requests = s.requests.modify i f)
    (counts : t.delegate.outcomeCounts outcome + (r.phase.tally outcome).toNat =
      s.delegate.outcomeCounts outcome + ((f r).phase.tally outcome).toNat) :
    Tallied outcome entries refused t := by
  have told := tally_modify outcome found requests
  rw [Tallied] at tallied ⊢
  omega

theorem tallied_unblocked (bypass : Ctx → Bool) (now : Nat → Int) {outcome : Status}
    {entries : List (Turn Nat)} {refused : List Nat} {i : Nat} {r : Request Ctx}
    {admission : Grant} {call : Completion Unit}
    (valid : s.Valid) (tallied : Tallied outcome entries refused s)
    (found : s.requests[i]? = some r) (atUnblock : r.phase = .unblocking admission call) :
    Tallied outcome (entries ++ (handedOver (simpleDelegate bypass) now s.queue s).map .handed)
      (refused ++ (stoppedAt (simpleDelegate bypass) now s.queue s).toList)
      { unblock (simpleDelegate bypass) now s.queue s with
        requests := (unblock (simpleDelegate bypass) now s.queue s).requests.modify i
          (.moveTo (.completed admission call)) } := by
  have kept : (unblock (simpleDelegate bypass) now s.queue s).requests[i]? = some r :=
    unblock_keeps valid found (by rw [atUnblock]; rfl)
  have ended : Tallied outcome
      (entries ++ (handedOver (simpleDelegate bypass) now s.queue s).map .handed)
      (refused ++ (stoppedAt (simpleDelegate bypass) now s.queue s).toList)
      (unblock (simpleDelegate bypass) now s.queue s) := by
    have counts := unblock_tally bypass outcome now rfl valid
    rw [Tallied] at tallied ⊢
    simp only [deliveries_append, deliveries_handed, List.length_append]
    by_cases rejected : outcome = .rejected
    · simp only [rejected, if_true] at counts tallied ⊢
      omega
    · simp only [rejected, if_false] at counts tallied ⊢
      omega
  refine tallied_relabel ended kept rfl ?_
  rw [atUnblock]
  cases outcome <;> rfl

/-- Nothing but `Unblock` hands a slot over or asks on behalf of a waiter. -/
theorem moves_silent {i : Nat} {input : Input} {r : Request Ctx} {shared : Shared (Counters Unit)}
    {next : Phase} {made : Option (Slot Unit)} (found : s.requests[i]? = some r)
    (moved : Moves (simpleDelegate bypass) discipline i r.context s.toShared input r.phase shared
      next made) (t : State Ctx (Counters Unit)) :
    deliveries (turns (simpleDelegate bypass) discipline s (.advance i input) t) = [] ∧
      refusals (simpleDelegate bypass) s (.advance i input) t = [] := by
  obtain ⟨context, phase⟩ := r
  simp only [turns, refusals, found]
  cases moved with
  | turnedAway full => simp [Phase.turns, full, deliveries]
  | parked parks => simp [Phase.turns, parks, deliveries, Turn.handed?]
  | delivered slot => simp [Phase.turns, slot, deliveries]
  | timedOut empty => simp [Phase.turns, empty, deliveries, Turn.handed?]
  | _ => exact ⟨rfl, rfl⟩

theorem tallied_step {outcome : Status} {entries : List (Turn Nat)} {refused : List Nat}
    (valid : s.Valid)
    (intact : outcome = .rejected ∨ outcome = .bypassed ∨
      (s.Registered ∧ s.nextSlotId ≤ 2 ^ 32))
    (tallied : Tallied outcome entries refused s)
    (stepped : s.step (simpleDelegate bypass) discipline e = some t) :
    Tallied outcome (entries ++ turns (simpleDelegate bypass) discipline s e t)
      (refused ++ refusals (simpleDelegate bypass) s e t) t := by
  cases e with
  | tryAcquire context =>
    cases stepped
    have nothing : Phase.trying.tally outcome = false := by cases outcome <;> rfl
    have same : tally outcome { s with requests := s.requests ++ [⟨context, .trying⟩] } =
        s.tally outcome := by
      simp [tally, nothing]
    simpa [Tallied, turns, refusals, same] using tallied
  | setLimit value =>
    cases stepped
    simp only [turns, refusals, List.append_nil]
    exact tallied
  | guard op =>
    simp only [turns, refusals, List.append_nil]
    rcases step_guard valid stepped with
      ⟨heap, rfl, _⟩ | ⟨heap, call, r, ticket, admission, found, atHeld, _, rfl, _⟩
    · exact tallied
    · refine tallied_relabel tallied found rfl ?_
      rw [atHeld]
      cases outcome <;> rfl
  | advance i input =>
    obtain ⟨r, found, ⟨admission, call, atUnblock, rfl⟩ |
      ⟨shared, next, made, heap, moved, _, rfl⟩⟩ := step_advance stepped
    · have ended := tallied_unblocked bypass input.now valid tallied found atUnblock
      obtain ⟨context, phase⟩ := r
      subst atUnblock
      simp only [turns, refusals, found, Phase.turns]
      exact ended
    · have same : Tallied outcome entries refused
          { s with toShared := shared, requests := s.requests.modify i (.moveTo next), heap } := by
        refine tallied_relabel tallied found rfl (moved.tally ?_)
        refine intact.imp id (Or.imp id ?_)
        rintro ⟨registered, few⟩
        exact ⟨registered.kept i r found,
          key_free registered found fun _ taken => apart_of_few registered few found taken⟩
      obtain ⟨undelivered, silent⟩ := moves_silent found moved
        { s with toShared := shared, requests := s.requests.modify i (.moveTo next), heap }
      rw [Tallied] at same ⊢
      rw [silent, List.append_nil, deliveries_append, undelivered, List.append_nil]
      exact same

theorem run_tallied {limit : Int} {es : List (Event Ctx)} (outcome : Status)
    (ran : run (step (simpleDelegate bypass) discipline) (initial Ctx limit) es = some s)
    (intact : outcome = .rejected ∨ outcome = .bypassed ∨ s.nextSlotId ≤ 2 ^ 32) :
    Tallied outcome (journal (simpleDelegate bypass) discipline (initial Ctx limit).delegate es)
      (retries (simpleDelegate bypass) discipline (initial Ctx limit).delegate es) s := by
  refine history (P := fun es (s : State Ctx (Counters Unit)) =>
    outcome = .rejected ∨ outcome = .bypassed ∨ s.nextSlotId ≤ 2 ^ 32 →
    Tallied outcome (journal (simpleDelegate bypass) discipline (initial Ctx limit).delegate es)
      (retries (simpleDelegate bypass) discipline (initial Ctx limit).delegate es) s) ?_ ?_ ran intact
  · intro _
    cases outcome <;> rfl
  · intro es s e t before tallied stepped intact
    have valid : s.Valid := run_valid before
    have earlier (few : t.nextSlotId ≤ 2 ^ 32) : s.nextSlotId ≤ 2 ^ 32 :=
      (nextSlotId_step valid stepped).trans few
    have started : run (step (simpleDelegate bypass) discipline)
      (start (initial Ctx limit).delegate) es = some s := before
    rw [journal, observe_concat started stepped, retries, observe_concat started stepped]
    refine tallied_step valid ?_ (tallied (intact.imp id (Or.imp id earlier))) stepped
    refine intact.imp id (Or.imp id fun few => ?_)
    exact ⟨run_registered before (earlier few), earlier few⟩

/-- What the delegate's counters say of a run and the state where it ends. -/
structure Outcomes (bypass : Ctx → Bool) (discipline : Discipline) (limit : Int)
    (es : List (Event Ctx)) (s : State Ctx (Counters Unit)) : Prop where
  /-- Once for every call that returned `nullopt`, every caller that is parked and every
  caller that was handed a slot from the queue, and once for every `Unblock` that the
  delegate stopped. -/
  rejected : s.Quiescent → s.delegate.outcomeCounts .rejected =
    s.requests.countP (fun r => r.phase = .refused) + s.queue.length +
    (deliveries (journal (simpleDelegate bypass) discipline (initial Ctx limit).delegate es)).length +
    (retries (simpleDelegate bypass) discipline (initial Ctx limit).delegate es).length
  /-- Once for every call that was granted a bypassed slot. -/
  bypassed : s.delegate.outcomeCounts .bypassed =
    s.requests.countP fun r => r.phase.admission?.any fun inner => inner.slot.bypassed
  /-- Once for every other outer guard that was completed, under the status it was completed
  with, as long as ids do not come round. -/
  completed : s.nextSlotId ≤ 2 ^ 32 → ∀ status, s.delegate.outcomeCounts (toOutcomeStatus status) =
    s.requests.countP fun r => r.phase.settled status

theorem unserved_count (valid : s.Valid) (waits : s.Waits) :
    s.requests.countP (fun r => r.phase.unserved) = s.queue.length := by
  have positions := Pool.ncard_positions (fun r : Request Ctx => r.phase.unserved) s.requests
  have queued : {i | ∃ r, s.requests[i]? = some r ∧ r.phase.unserved = true} =
      (s.queue.toFinset : Set Nat) := by
    ext i
    simp only [Set.mem_ofPred_eq, List.coe_toFinset, Phase.unserved, Option.any_eq_true]
    constructor
    · rintro ⟨r, found, waiter, waiting, empty⟩
      exact waits i r waiter found waiting (by simpa using empty)
    · intro member
      obtain ⟨r, waiter, found, waiting, empty⟩ := valid.queued i member
      exact ⟨r, found, waiter, waiting, by simpa using empty⟩
  rw [← List.toFinset_card_of_nodup valid.nodup, ← Set.ncard_coe_finset, ← queued]
  exact positions.symm

theorem turnedDown_quiescent (quiescent : s.Quiescent) :
    s.tally .rejected = s.requests.countP (fun r => r.phase = .refused) +
      s.requests.countP (fun r => r.phase.unserved) := by
  refine Pool.countP_add ?_
  intro r member
  have idle := quiescent r member
  cases phase : r.phase <;>
    simp_all [Phase.idle, Phase.tally, Phase.turnedDown, Phase.unserved, Phase.waiter?]

theorem outcomes_counted {limit : Int} {es : List (Event Ctx)}
    (ran : run (step (simpleDelegate bypass) discipline) (initial Ctx limit) es = some s) :
    Outcomes bypass discipline limit es s where
  rejected := by
    intro quiescent
    have tallied := run_tallied .rejected ran (.inl rfl)
    have parked : s.requests.countP (fun r => r.phase.unserved) = s.queue.length :=
      unserved_count (run_valid ran) (run_waits ran)
    rw [Tallied, if_pos rfl, turnedDown_quiescent quiescent, parked] at tallied
    omega
  bypassed := by
    have tallied := run_tallied .bypassed ran (.inr (.inl rfl))
    exact tallied
  completed := by
    intro few status
    have tallied := run_tallied (toOutcomeStatus status) ran (.inr (.inr few))
    cases status <;> exact tallied

/-- Three callers park, the last of them times out, and the first call's completion serves
one and stops at the other. -/
def fourRejections : List (Event Unit) :=
  [.tryAcquire (), .advance 0 {}, .advance 0 {}, .advance 0 {},
    .tryAcquire (), .advance 1 {}, .advance 1 {}, .tryAcquire (), .advance 2 {}, .advance 2 {},
    .tryAcquire (), .advance 3 {}, .advance 3 {}, .advance 3 {}, .advance 3 {},
    .guard (.complete 0 .dropped), .advance 0 {}, .advance 0 {}, .advance 0 {},
    .advance 1 {}, .advance 1 {}, .advance 1 {}, .advance 1 { addr := 1 }]

theorem fourRejections_counted : ∃ s,
    run (step (plain Unit) .fifo) (initial Unit 1) fourRejections = some s ∧ s.Quiescent ∧
    s.requests.countP (fun r => r.phase = .refused) = 1 ∧ s.queue = [2] ∧
    deliveries (journal (plain Unit) .fifo (initial Unit 1).delegate fourRejections) = [1] ∧
    retries (plain Unit) .fifo (initial Unit 1).delegate fourRejections = [2] ∧
    s.delegate.outcomeCounts .rejected = 4 ∧ s.delegate.outcomeCounts .dropped = 1 := by
  have ended : (run (step (plain Unit) .fifo) (initial Unit 1) fourRejections).map (fun s =>
      (decide s.Quiescent, s.requests.countP (fun r => r.phase = .refused), s.queue, s.nextSlotId,
        s.requests.countP fun r => r.phase.settled .dropped)) = some (true, 1, [2], 2, 1) := by
    decide +kernel
  have served : deliveries (journal (plain Unit) .fifo (initial Unit 1).delegate fourRejections) =
      [1] := by decide +kernel
  have stopped : retries (plain Unit) .fifo (initial Unit 1).delegate fourRejections = [2] := by
    decide +kernel
  obtain ⟨s, ran, seen⟩ := Option.map_eq_some_iff.mp ended
  simp only [Prod.mk.injEq, decide_eq_true_eq] at seen
  obtain ⟨quiescent, refused, queue, ids, dropped⟩ := seen
  have outcomes := outcomes_counted ran
  refine ⟨s, ran, quiescent, refused, queue, served, stopped, ?_, ?_⟩
  · rw [outcomes.rejected quiescent, refused, queue, served, stopped]
    rfl
  · exact (outcomes.completed (by omega) .dropped).trans dropped

/-- The second caller parks and is handed the slot of the first. -/
def servedLater : List (Event Unit) :=
  [.tryAcquire (), .advance 0 {}, .advance 0 {}, .advance 0 {},
    .tryAcquire (), .advance 1 {}, .advance 1 {},
    .guard (.complete 0 .success), .advance 0 {}, .advance 0 {}, .advance 0 {},
    .advance 1 {}, .advance 1 {}, .advance 1 {}, .advance 1 { addr := 1 }]

theorem servedLater_ends (discipline : Discipline) (known : discipline ∈ [.fifo, .lifo 1]) : ∃ s,
    run (step (plain Unit) discipline) (initial Unit 1) servedLater = some s ∧ s.Quiescent ∧
    s.delegate.outcomeCounts .rejected = 1 ∧
    s.requests.countP (fun r => r.phase = .refused) = 0 := by
  have ended : ∀ discipline ∈ [Discipline.fifo, .lifo 1],
      (run (step (plain Unit) discipline) (initial Unit 1) servedLater).map (fun s =>
        (decide s.Quiescent, s.delegate.outcomeCounts .rejected,
          s.requests.countP fun r => r.phase = .refused)) = some (true, 1, 0) := by
    decide +kernel
  obtain ⟨s, ran, seen⟩ := Option.map_eq_some_iff.mp (ended discipline known)
  simp only [Prod.mk.injEq, decide_eq_true_eq] at seen
  obtain ⟨quiescent, rejected, refused⟩ := seen
  exact ⟨s, ran, quiescent, rejected, refused⟩

theorem servedLater_rejected :
    (¬ ∀ s, run (step (plain Unit) .fifo) (initial Unit 1) servedLater = some s → s.Quiescent →
      s.delegate.outcomeCounts .rejected = s.requests.countP fun r => r.phase = .refused) ∧
    ¬ ∀ s, run (step (plain Unit) (.lifo 1)) (initial Unit 1) servedLater = some s →
      s.Quiescent →
      s.delegate.outcomeCounts .rejected = s.requests.countP fun r => r.phase = .refused := by
  constructor
  · intro counts
    obtain ⟨s, ran, quiescent, rejected, refused⟩ := servedLater_ends .fifo (by decide)
    have same := counts s ran quiescent
    omega
  · intro counts
    obtain ⟨s, ran, quiescent, rejected, refused⟩ := servedLater_ends (.lifo 1) (by decide)
    have same := counts s ran quiescent
    omega
end State
end Limen.BlockingLimiter
