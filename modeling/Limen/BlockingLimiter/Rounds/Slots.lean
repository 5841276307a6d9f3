import Limen.BlockingLimiter.Rounds
import Limen.BlockingLimiter.Wakeup

/-! Slots and wakeups where the rounds of `Unblock` are interrupted: what the delegate does in
between loses no slot and no wakeup. -/
namespace Limen.BlockingLimiter.Rounds
open Transition
open AbstractLimiter (Counters)

section
variable {Ctx δ : Type} {d : Delegate Ctx δ} {discipline : Discipline} {s : Rounds Ctx δ}
  {delegate : δ} {es : List (Event Ctx)}

theorem run_sound (ran : run (step d discipline) (start delegate) es = some s) :
    Custody.Sound Grant.id s.ledger := by
  have begun : run (State.step d discipline) (State.start delegate) [] =
    some (State.start delegate : State Ctx δ) := rfl
  refine invariant (P := fun u => Custody.Sound Grant.id u.ledger) ?_ ?_ ran
    (State.run_sound begun)
  · intro u e v valid sound stepped
    exact sound.steps (State.ledger_step valid stepped)
  · intro u w rest r delegate slot now valid sound queue found _
    exact sound.steps (State.ledger_handOff valid queue found)

theorem registered_handOff {u : State Ctx δ} {w : Nat} {rest : List Nat} {r : Request Ctx}
    {slot : Slot Unit} (valid : u.Valid) (registered : u.Registered) (queue : u.queue = w :: rest)
    (found : u.requests[w]? = some r) : (u.handOff w rest delegate slot).Registered := by
  obtain ⟨waiter, waits, _⟩ := valid.front queue found
  refine State.registered_relabel registered found rfl rfl rfl rfl ?_ ?_ ?_ ?_ <;>
    cases phase : r.phase <;>
    simp_all [Phase.waiter?, Request.deliver, Request.moveTo, Phase.deliver, Phase.Kept,
      Phase.ticket?, Phase.registered?, Phase.mirrored?]
end

section Simple
variable {Ctx : Type} {bypass : Ctx → Bool} {discipline : Discipline} {limit : Int}
  {s : Rounds Ctx (Counters Unit)} {es : List (Event Ctx)}

theorem run_counted
    (ran : run (step (simpleDelegate bypass) discipline) (initial Ctx limit) es = some s)
    (few : s.nextSlotId ≤ 2 ^ 32) : s.Registered ∧ s.Counted := by
  refine invariant (P := fun u : State Ctx (Counters Unit) =>
    u.nextSlotId ≤ 2 ^ 32 → u.Registered ∧ u.Counted) ?_ ?_ ran ?_ few
  · intro u e v valid intact stepped few
    have before := (State.nextSlotId_step valid stepped).trans few
    obtain ⟨registered, counted⟩ := intact before
    refine ⟨State.registered_step valid registered ?_ stepped,
      State.counted_step valid registered before counted stepped⟩
    intro i input r ticket _ found taken
    exact State.apart_of_few registered before found taken
  · intro u w rest r delegate slot now valid intact queue found granted few
    obtain ⟨registered, counted⟩ := intact few
    exact ⟨registered_handOff valid registered queue found,
      State.counted_handOff valid counted queue found granted⟩
  · intro _
    exact ⟨State.start_registered _, rfl⟩

/-- What holds of slots and guards at any moment. -/
structure SlotsKept (s : State Ctx (Counters Unit)) : Prop where
  /-- A granted slot has one owner, or it has none and was completed once. -/
  owned : ∀ g < s.granted,
    ((∃! place, ∃ inner, s.owner place = some inner ∧ inner.id = g) ∧
      about g s.completions = []) ∨
    ((∀ place inner, s.owner place = some inner → inner.id ≠ g) ∧
      ∃ status, about g s.completions = [status])
  /-- A slot is completed with the status of the outer guard that it belongs to. -/
  mirrored : ∀ (i : Nat) r admission call, s.requests[i]? = some r →
    r.phase.mirrored? = some (admission, call) → about admission.id s.completions = [call.status]
  guarded : ∀ (i : Nat) slot, s.heap.owners.Holds i slot ↔ ∃ r ticket admission,
    s.requests[i]? = some r ∧ r.phase = .held ticket admission ∧ slot = outerSlot ticket ∧
    s.owner (.entry slot.partitionIndex) = some admission
  unqueued : ∀ (i : Nat) r, s.requests[i]? = some r → r.phase.returned = true → i ∉ s.queue
  /-- The delegate counts the slots that calls have. -/
  counted : s.delegate.inflight = s.requests.countP fun r => r.phase.charged

/-- No slot is lost and none is completed twice, whatever comes between the rounds of an
`Unblock`. -/
theorem slots_kept
    (ran : run (step (simpleDelegate bypass) discipline) (initial Ctx limit) es = some s)
    (few : s.nextSlotId ≤ 2 ^ 32) : SlotsKept s.toState := by
  have valid : s.toState.Valid := (run_valid ran).valid
  have sound : Custody.Sound Grant.id s.ledger := run_sound ran
  obtain ⟨registered, counted⟩ := run_counted ran few
  exact
    { owned := fun g issued => sound.custody issued
      mirrored := fun i r admission call found mirrored =>
        State.mirrored_once registered sound found mirrored
      guarded := State.guards_registered valid registered
      unqueued := fun i r found returned => State.returned_unqueued valid found returned
      counted := counted }
end Simple

section Wakeups
variable {Ctx : Type} {discipline : Discipline} {capacity : Int} {s t : Rounds Ctx (Counters Unit)}
  {e : Event Ctx} {es : List (Event Ctx)}

theorem releasing_deliver (phase : Phase) (inner : Grant) :
    (phase.deliver inner).releasing = phase.releasing := by
  cases phase <;> rfl

/-- While an `Unblock` goes on, its slots may be taken by others; it looks again. -/
theorem watched_handOff {u : State Ctx (Counters Unit)} {w : Nat} {rest : List Nat}
    {r : Request Ctx} {delegate : Counters Unit} {slot : Slot Unit} {now : Int}
    (watched : State.Watched capacity u) (releasing : Releasing u.requests)
    (queue : u.queue = w :: rest) (found : u.requests[w]? = some r)
    (granted : (plain Ctx).tryAcquire u.delegate r.context now = (delegate, some slot)) :
    State.Watched capacity (u.handOff w rest delegate slot) := by
  obtain ⟨still, free, after⟩ := plain_admits granted
  refine ⟨State.valid_handOff watched.valid queue found, still.trans watched.limit, ?_,
    fun _ => .inr ?_⟩
  · have limit := watched.limit
    change delegate.inflight ≤ capacity
    omega
  · obtain ⟨r', member, completing⟩ := releasing
    obtain ⟨j, found'⟩ := List.getElem?_of_mem member
    obtain ⟨r'', moved, onward⟩ := Pool.modify_keeps (f := Request.deliver ⟨u.granted, slot⟩)
      (P := fun r => r.phase.releasing = true) found found' completing
      (releasing_deliver _ _).trans
    exact ⟨r'', List.mem_of_getElem? moved, onward⟩

theorem watched_step (valid : s.Valid) (watched : State.Watched capacity s.toState)
    (attended : Attended discipline capacity s.toState e)
    (constant : ∀ value, e = .setLimit value → value = capacity)
    (stepped : s.step (plain Ctx) discipline e = some t) : State.Watched capacity t.toState := by
  cases step_moves stepped with
  | locked found atUnblock free => exact watched
  | handed holds queue found granted =>
    obtain ⟨r, admission, call, there, atUnblock⟩ := valid.held _ holds
    have releasing : Releasing s.requests :=
      ⟨r, List.mem_of_getElem? there, by rw [atUnblock]; rfl⟩
    exact watched_handOff watched releasing queue found granted
  | ended holds found atUnblock last onward =>
    refine State.watched_step watched ?_ (by simp) onward
    exact attended
  | stepped outside onward => exact State.watched_step watched attended constant onward

theorem run_watched (positive : 1 ≤ capacity)
    (ran : run (step (plain Ctx) discipline) (initial Ctx capacity) es = some s)
    (constant : ∀ value, .setLimit value ∈ es → value = capacity)
    (attended : Along (step (plain Ctx) discipline)
      (fun s e => Attended discipline capacity s.toState e) (initial Ctx capacity) es) :
    State.Watched capacity s.toState := by
  refine history (P := fun es s => (∀ value, .setLimit value ∈ es → value = capacity) →
    Along (step (plain Ctx) discipline)
      (fun s e => Attended discipline capacity s.toState e) (initial Ctx capacity) es →
    State.Watched capacity s.toState) ?_ ?_ ran constant attended
  · intro _ _
    exact ⟨State.start_valid _, rfl, Int.le_of_lt positive, fun queue => absurd rfl queue⟩
  · intro es s e t ran watched stepped constant attended
    refine watched_step (run_valid ran)
      (watched (fun value member => constant value ?_) attended.left)
      (attended.right ran).1 (fun value here => constant value ?_) stepped
    · exact List.mem_append_left _ member
    · simp [here]

/-- Where the steps attend to the queue, no wakeup is lost between the rounds of an `Unblock`:
whoever is left parked is parked behind a full delegate. -/
theorem left_behind_full (positive : 1 ≤ capacity)
    (ran : run (step (plain Ctx) discipline) (initial Ctx capacity) es = some s)
    (constant : ∀ value, .setLimit value ∈ es → value = capacity)
    (attended : Along (step (plain Ctx) discipline)
      (fun s e => Attended discipline capacity s.toState e) (initial Ctx capacity) es)
    (quiescent : s.toState.Quiescent) (parked : s.queue ≠ []) :
    s.delegate.inflight = capacity := by
  have watched := run_watched positive ran constant attended
  exact (watched.parked parked).resolve_right quiescent.not_releasing
end Wakeups

/-- Two callers park, two calls complete, and between the rounds of the first `Unblock` a
newcomer takes the second slot. -/
def overtaken : List (Event Unit) :=
  [.tryAcquire (), .advance 0 {}, .advance 0 {}, .advance 0 {},
    .tryAcquire (), .advance 1 {}, .advance 1 {}, .advance 1 { addr := 1 },
    .tryAcquire (), .advance 2 {}, .advance 2 {}, .tryAcquire (), .advance 3 {}, .advance 3 {},
    .guard (.complete 0 .success), .advance 0 {}, .advance 0 {},
    .guard (.complete 1 .success), .advance 1 {}, .advance 1 {},
    .advance 0 {}, .advance 0 {}, .tryAcquire (), .advance 4 {}, .advance 0 {},
    .advance 1 {}, .advance 1 {}, .advance 4 {}, .advance 4 { addr := 2 },
    .advance 2 {}, .advance 2 {}, .advance 2 {}, .advance 2 { addr := 3 }]

theorem overtaken_kept : ∃ s,
    run (step (simpleDelegate fun _ => false) .fifo) (initial Unit 2) overtaken = some s ∧
    s.nextSlotId ≤ 2 ^ 32 ∧ SlotsKept s.toState := by
  have ended : (run (step (simpleDelegate fun _ => false) .fifo) (initial Unit 2) overtaken).map
      (fun s => s.nextSlotId) = some 4 := by decide +kernel
  obtain ⟨s, ran, ids⟩ := Option.map_eq_some_iff.mp ended
  have few : s.nextSlotId ≤ 2 ^ 32 := by
    rw [ids]
    decide
  exact ⟨s, ran, few, slots_kept ran few⟩

theorem overtaken_behind_full : ∃ s,
    run (step (plain Unit) .fifo) (initial Unit 2) overtaken = some s ∧ s.toState.Quiescent ∧
    s.queue = [3] ∧ s.delegate.inflight = 2 := by
  have ended : (run (step (plain Unit) .fifo) (initial Unit 2) overtaken).map
      (fun s => (s.queue, decide s.toState.Quiescent)) = some ([3], true) := by decide +kernel
  obtain ⟨s, ran, seen⟩ := Option.map_eq_some_iff.mp ended
  obtain ⟨queue, quiescent⟩ := Prod.mk.inj seen
  have constant : ∀ value, .setLimit value ∈ overtaken → value = 2 := by simp [overtaken]
  have attended : Along (step (plain Unit) .fifo)
      (fun s e => Attended .fifo 2 s.toState e) (initial Unit 2) overtaken := by decide +kernel
  exact ⟨s, ran, of_decide_eq_true quiescent, queue,
    left_behind_full (by decide) ran constant attended (of_decide_eq_true quiescent)
      (by simp [queue])⟩
end Limen.BlockingLimiter.Rounds
