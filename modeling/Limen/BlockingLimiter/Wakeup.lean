import Limen.BlockingLimiter.Steps

/-! Callers that stay parked while the delegate has a free slot. A caller that the delegate
turned away takes `mu_` only later; a completion that runs `Unblock` in between finds the
queue empty, and nobody looks at the queue again. This is the one way, apart from an id
that comes round again, in which a wakeup is lost. -/
namespace Limen.BlockingLimiter
open Transition
open AbstractLimiter (Counters)
variable {Ctx : Type} {discipline : Discipline} {capacity : Int}

/-- A `SimpleLimiter` without a bypass predicate. -/
abbrev plain (Ctx : Type) : Delegate Ctx (Counters Unit) := simpleDelegate fun _ => false

theorem plain_admits {c c' : Counters Unit} {context : Ctx} {now : Int} {slot : Slot Unit}
    (admitted : (plain Ctx).tryAcquire c context now = (c', some slot)) :
    c'.limit = c.limit ∧ c.inflight < c.limit ∧ c'.inflight = c.inflight + 1 := by
  obtain ⟨limit, after, limited⟩ := simple_admits admitted
  obtain ⟨counted, free⟩ := limited rfl
  rw [counted] at after
  exact ⟨limit, free, after⟩

variable (Ctx) in
theorem complete_within {s : Shared (Counters Unit)} (limit : s.delegate.limit = capacity)
    (within : s.delegate.inflight ≤ capacity) (inner : Grant) (status : CompletionStatus)
    (now : Int) : (s.complete (plain Ctx) inner status now).delegate.limit = capacity ∧
      (s.complete (plain Ctx) inner status now).delegate.inflight ≤ capacity := by
  refine ⟨(complete_limit s inner status).trans limit, ?_⟩
  rw [complete_inflight]
  split <;> omega

/-- The call has returned, or its thread is parked in `WaitForNotificationWithDeadline`. -/
def Phase.idle : Phase → Bool
  | .waiting _ | .refused | .held _ _ | .completed _ _ => true
  | _ => false

/-- The call is inside `OnSlotComplete` and has `Unblock` before it. -/
def Phase.releasing : Phase → Bool
  | .extracting _ _ _ | .mirroring _ _ _ | .unblocking _ _ => true
  | _ => false

def Releasing (requests : List (Request Ctx)) : Prop := ∃ r ∈ requests, r.phase.releasing = true

instance (requests : List (Request Ctx)) : Decidable (Releasing requests) :=
  inferInstanceAs (Decidable (∃ r ∈ requests, r.phase.releasing = true))

/-- A step may leave a slot free behind a parked caller only while `Unblock` is still to
come. Two steps can: the one that parks, and an `emplace` that finds its key taken. -/
def Phase.Attended (discipline : Discipline) (capacity : Int) (i : Nat)
    (s : State Ctx (Counters Unit)) : Phase → Prop
  | .parking => (discipline.park i s.queue).isSome →
    capacity ≤ s.delegate.inflight ∨ Releasing s.requests
  | .registering ticket _ => (s.activeSlots (slotId ticket)).isSome →
    s.queue = [] ∨ Releasing s.requests
  | _ => True

def Attended (discipline : Discipline) (capacity : Int) (s : State Ctx (Counters Unit)) :
    Event Ctx → Prop
  | .advance i _ => ∀ r ∈ s.requests[i]?, r.phase.Attended discipline capacity i s
  | .tryAcquire _ | .guard _ | .setLimit _ => True

instance (discipline : Discipline) (capacity : Int) (i : Nat) (s : State Ctx (Counters Unit)) :
    (phase : Phase) → Decidable (phase.Attended discipline capacity i s)
  | .parking => inferInstanceAs (Decidable (_ → _))
  | .registering _ _ => inferInstanceAs (Decidable (_ → _))
  | .trying | .numbering _ | .waiting _ | .awake _ | .refused | .held _ _ | .extracting _ _ _
  | .mirroring _ _ _ | .unblocking _ _ | .completed _ _ => .isTrue trivial

instance (discipline : Discipline) (capacity : Int) (s : State Ctx (Counters Unit)) :
    (e : Event Ctx) → Decidable (Attended discipline capacity s e)
  | .advance i _ => inferInstanceAs (Decidable (∀ r ∈ s.requests[i]?, _))
  | .tryAcquire _ | .guard _ | .setLimit _ => .isTrue trivial

theorem releasing_modify {requests : List (Request Ctx)} {i : Nat} {r : Request Ctx} {next : Phase}
    (found : requests[i]? = some r) (kept : r.phase.releasing = true → next.releasing = true)
    (releasing : Releasing requests) : Releasing (requests.modify i (.moveTo next)) := by
  obtain ⟨r', member, still⟩ := releasing
  obtain ⟨j, found'⟩ := List.mem_iff_getElem?.mp member
  obtain ⟨r'', moved, after⟩ := Pool.modify_keeps (f := Request.moveTo next)
    (P := fun r => r.phase.releasing = true) found found' still kept
  exact ⟨r'', List.mem_of_getElem? moved, after⟩

theorem releasing_here {requests : List (Request Ctx)} {i : Nat} {r : Request Ctx} {next : Phase}
    (found : requests[i]? = some r) (releasing : next.releasing = true) :
    Releasing (requests.modify i (.moveTo next)) :=
  ⟨_, List.mem_of_getElem? (Pool.getElem?_modify_self _ found), releasing⟩

namespace State
variable {s t : State Ctx (Counters Unit)} {e : Event Ctx}

/-- A caller is parked only behind a full delegate or ahead of an `Unblock`. -/
structure Watched (capacity : Int) (s : State Ctx (Counters Unit)) : Prop where
  valid : s.Valid
  limit : s.delegate.limit = capacity
  within : s.delegate.inflight ≤ capacity
  parked : s.queue ≠ [] → s.delegate.inflight = capacity ∨ Releasing s.requests

theorem unblock_limit {bypass : Ctx → Bool} (now : Nat → Int) :
    (unblock (simpleDelegate bypass) now s.queue s).delegate.limit = s.delegate.limit := by
  refine unblock_invariant (P := fun t : State Ctx (Counters Unit) =>
    t.delegate.limit = s.delegate.limit) ?_ ?_ rfl rfl
  · intro u w rest r delegate slot now limit _ _ granted
    exact (simple_admits granted).1.trans limit
  · intro u w rest r delegate now limit _ _ refused
    exact (simple_refuses refused).1.trans limit

/-- `Unblock` does not stop before the queue is empty or the delegate full. -/
theorem unblock_drains {bypass : Ctx → Bool} (now : Nat → Int) {queue : List Nat}
    (same : s.queue = queue) (valid : s.Valid) (limit : s.delegate.limit = capacity) :
    (unblock (simpleDelegate bypass) now queue s).queue = [] ∨
      capacity ≤ (unblock (simpleDelegate bypass) now queue s).delegate.inflight := by
  induction queue generalizing s with
  | nil => exact .inl same
  | cons w rest ih =>
    obtain ⟨r, waiter, found, _⟩ := valid.queued w (by simp [same])
    simp only [unblock, found]
    split
    · rename_i delegate refused
      obtain ⟨_, full, kept⟩ := simple_refuses refused
      refine .inr ?_
      rw [kept, ← limit]
      exact full
    · rename_i delegate slot granted
      obtain ⟨still, _⟩ := simple_admits granted
      exact ih rfl (valid_handOff valid same found) (still.trans limit)

theorem unblock_within (now : Nat → Int) (limit : s.delegate.limit = capacity)
    (within : s.delegate.inflight ≤ capacity) :
    (unblock (plain Ctx) now s.queue s).delegate.limit = capacity ∧
      (unblock (plain Ctx) now s.queue s).delegate.inflight ≤ capacity := by
  refine unblock_invariant (P := fun t : State Ctx (Counters Unit) =>
    t.delegate.limit = capacity ∧ t.delegate.inflight ≤ capacity) ?_ ?_ rfl ⟨limit, within⟩
  · rintro s w rest r delegate slot now ⟨limit, within⟩ _ _ granted
    obtain ⟨still, free, after⟩ := plain_admits granted
    refine ⟨still.trans limit, ?_⟩
    change delegate.inflight ≤ capacity
    omega
  · rintro s w rest r delegate now ⟨limit, within⟩ _ _ refused
    obtain ⟨still, _, kept⟩ := simple_refuses refused
    exact ⟨still.trans limit, kept.trans_le within⟩

theorem watched_advance {i : Nat} {input : Input} {r : Request Ctx} {shared : Shared (Counters Unit)}
    {next : Phase} {made : Option (Slot Unit)} {heap : Heap Unit} (watched : Watched capacity s)
    (found : s.requests[i]? = some r) (attended : r.phase.Attended discipline capacity i s)
    (moved : Moves (plain Ctx) discipline i r.context s.toShared input r.phase shared next made)
    (constructed : s.heap.construct input.addr i made = some heap) :
    Watched capacity
      { s with toShared := shared, requests := s.requests.modify i (.moveTo next), heap } := by
  have valid := valid_advance watched.valid found moved constructed
  have others (idle : r.phase.releasing = false) (releasing : Releasing s.requests) :
      Releasing (s.requests.modify i (.moveTo next)) :=
    releasing_modify found (fun here => by rw [idle] at here; contradiction) releasing
  have same (idle : r.phase.releasing = false) (queue : s.queue ≠ []) :
      s.delegate.inflight = capacity ∨ Releasing (s.requests.modify i (.moveTo next)) :=
    (watched.parked queue).imp id (others idle)
  obtain ⟨context, phase⟩ := r
  dsimp only at *
  cases moved with
  | admitted tried =>
    obtain ⟨still, free, after⟩ := plain_admits tried
    refine ⟨valid, still.trans watched.limit, ?_, fun queue => .inr ?_⟩
    · have limit := watched.limit
      dsimp only
      omega
    · rcases watched.parked queue with full | releasing
      · have limit := watched.limit
        omega
      · exact others rfl releasing
  | rejected tried =>
    obtain ⟨still, _, kept⟩ := simple_refuses tried
    refine ⟨valid, still.trans watched.limit, kept.trans_le watched.within, ?_⟩
    intro queue
    exact (same rfl queue).imp kept.trans id
  | registered inner free => exact ⟨valid, watched.limit, watched.within, same rfl⟩
  | numbered inner => exact ⟨valid, watched.limit, watched.within, same rfl⟩
  | collided inner taken =>
    obtain ⟨limit, within⟩ := complete_within Ctx watched.limit watched.within inner
      .ignored (input.now 0)
    refine ⟨valid, limit, within, fun queue => .inr ?_⟩
    rcases attended (by rw [taken]; rfl) with empty | releasing
    · exact absurd empty queue
    · exact others rfl releasing
  | turnedAway full => exact ⟨valid, watched.limit, watched.within, same rfl⟩
  | parked parks =>
    refine ⟨valid, watched.limit, watched.within, ?_⟩
    intro _
    rcases attended (by rw [parks]; rfl) with full | releasing
    · exact .inl (le_antisymm watched.within full)
    · exact .inr (others rfl releasing)
  | woken waiter => exact ⟨valid, watched.limit, watched.within, same rfl⟩
  | delivered slot => exact ⟨valid, watched.limit, watched.within, same rfl⟩
  | timedOut empty =>
    refine ⟨valid, watched.limit, watched.within, fun remaining => same rfl ?_⟩
    exact Discipline.ne_nil_of_withdraw watched.valid.nodup remaining
  | extracted ticket admission call =>
    exact ⟨valid, watched.limit, watched.within, fun _ => .inr (releasing_here found rfl)⟩
  | missing admission call =>
    exact ⟨valid, watched.limit, watched.within, fun _ => .inr (releasing_here found rfl)⟩
  | mirrored inner admission call =>
    obtain ⟨limit, within⟩ := complete_within Ctx watched.limit watched.within inner
      call.status (input.now 0)
    exact ⟨valid, limit, within, fun _ => .inr (releasing_here found rfl)⟩

/-- Only the last step of a completion, `Unblock`, ends the watch over the queue. -/
theorem watched_unblocked {i : Nat} {input : Input} {r : Request Ctx} {admission : Grant}
    {call : Completion Unit} (watched : Watched capacity s) (found : s.requests[i]? = some r)
    (atUnblock : r.phase = .unblocking admission call) :
    Watched capacity { unblock (plain Ctx) input.now s.queue s with
      requests := (unblock (plain Ctx) input.now s.queue s).requests.modify i
        (.moveTo (.completed admission call)) } := by
  obtain ⟨limit, within⟩ := unblock_within input.now watched.limit watched.within
  refine ⟨valid_unblocked watched.valid found atUnblock, limit, within, fun queue => .inl ?_⟩
  rcases unblock_drains input.now rfl watched.valid watched.limit with empty | full
  · exact absurd empty queue
  · exact le_antisymm within full

theorem watched_step (watched : Watched capacity s) (attended : Attended discipline capacity s e)
    (constant : ∀ value, e = .setLimit value → value = capacity)
    (stepped : s.step (plain Ctx) discipline e = some t) : Watched capacity t := by
  have valid := valid_step watched.valid stepped
  cases e with
  | tryAcquire context =>
    cases stepped
    refine ⟨valid, watched.limit, watched.within, ?_⟩
    intro queue
    refine (watched.parked queue).imp id ?_
    rintro ⟨r, member, releasing⟩
    exact ⟨r, List.mem_append_left _ member, releasing⟩
  | advance i input =>
    obtain ⟨r, found, ⟨admission, call, atUnblock, rfl⟩ |
      ⟨shared, next, made, heap, moved, constructed, rfl⟩⟩ := step_advance stepped
    · exact watched_unblocked watched found atUnblock
    · exact watched_advance watched found (attended r found) moved constructed
  | guard op =>
    rcases step_guard watched.valid stepped with
      ⟨heap, rfl, _⟩ | ⟨heap, call, r, ticket, admission, found, _, _, rfl, _⟩
    · exact ⟨valid, watched.limit, watched.within, watched.parked⟩
    · exact ⟨valid, watched.limit, watched.within, fun _ => .inr (releasing_here found rfl)⟩
  | setLimit value =>
    cases stepped
    exact ⟨valid, constant value rfl, watched.within, watched.parked⟩

theorem run_watched {es : List (Event Ctx)} (positive : 1 ≤ capacity)
    (ran : run (step (plain Ctx) discipline) (initial Ctx capacity) es = some s)
    (constant : ∀ value, .setLimit value ∈ es → value = capacity)
    (attended : Along (step (plain Ctx) discipline) (Attended discipline capacity)
      (initial Ctx capacity) es) : Watched capacity s := by
  refine history (P := fun es s => (∀ value, .setLimit value ∈ es → value = capacity) →
    Along (step (plain Ctx) discipline) (Attended discipline capacity) (initial Ctx capacity) es →
    Watched capacity s) ?_ ?_ ran constant attended
  · intro _ _
    exact ⟨start_valid _, rfl, Int.le_of_lt positive, fun queue => absurd rfl queue⟩
  · intro es s e t ran watched stepped constant attended
    refine watched_step (watched (fun value member => constant value ?_) attended.left)
      (attended.right ran).1 (fun value here => constant value ?_) stepped
    · exact List.mem_append_left _ member
    · simp [here]

/-- Nobody executes inside the limiter, parked waiters excepted. -/
def Quiescent (s : State Ctx (Counters Unit)) : Prop := ∀ r ∈ s.requests, r.phase.idle = true

instance (s : State Ctx (Counters Unit)) : Decidable s.Quiescent :=
  inferInstanceAs (Decidable (∀ r ∈ s.requests, r.phase.idle = true))

theorem Quiescent.not_releasing (quiescent : s.Quiescent) : ¬ Releasing s.requests := by
  rintro ⟨r, member, releasing⟩
  have idle := quiescent r member
  cases phase : r.phase <;> simp [phase, Phase.idle, Phase.releasing] at idle releasing

/-- No wakeup is lost in a run whose steps all attend to the queue. -/
theorem parked_behind_full {es : List (Event Ctx)} (positive : 1 ≤ capacity)
    (ran : run (step (plain Ctx) discipline) (initial Ctx capacity) es = some s)
    (constant : ∀ value, .setLimit value ∈ es → value = capacity)
    (attended : Along (step (plain Ctx) discipline) (Attended discipline capacity)
      (initial Ctx capacity) es)
    (quiescent : s.Quiescent) (parked : s.queue ≠ []) : s.delegate.inflight = capacity := by
  have watched := run_watched positive ran constant attended
  exact (watched.parked parked).resolve_right quiescent.not_releasing

/-- The second of two rejected callers parks while the first call is completing; `Unblock`
serves the one that parked before. -/
def handedOn : List (Event Unit) :=
  [.tryAcquire (), .advance 0 {}, .advance 0 {}, .advance 0 {},
    .tryAcquire (), .advance 1 {}, .advance 1 {}, .tryAcquire (), .advance 2 {},
    .guard (.complete 0 .success), .advance 0 {}, .advance 0 {}, .advance 2 {}, .advance 0 {}]

theorem handedOn_behind_full : ∃ s,
    run (step (plain Unit) .fifo) (initial Unit 1) handedOn = some s ∧ s.Quiescent ∧
    s.queue = [2] ∧ s.delegate.inflight = 1 := by
  have ended : (run (step (plain Unit) .fifo) (initial Unit 1) handedOn).map
      (fun s => (s.queue, decide s.Quiescent)) = some ([2], true) := by decide +kernel
  obtain ⟨s, ran, seen⟩ := Option.map_eq_some_iff.mp ended
  obtain ⟨queue, quiescent⟩ := Prod.mk.inj seen
  have constant : ∀ value, .setLimit value ∈ handedOn → value = 1 := by simp [handedOn]
  have attended : Along (step (plain Unit) .fifo) (Attended .fifo 1) (initial Unit 1)
      handedOn := by decide +kernel
  exact ⟨s, ran, of_decide_eq_true quiescent, queue,
    parked_behind_full (by decide) ran constant attended (of_decide_eq_true quiescent)
      (by simp [queue])⟩

/-- The second caller is rejected, the first call completes and finds the queue empty, and
only then does the second caller park. -/
def lostWakeup : List (Event Unit) :=
  [.tryAcquire (), .advance 0 {}, .advance 0 {}, .advance 0 {}, .tryAcquire (), .advance 1 {},
    .guard (.complete 0 .success), .advance 0 {}, .advance 0 {}, .advance 0 {}, .advance 1 {}]

theorem lostWakeup_ends (discipline : Discipline) (known : discipline ∈ [.fifo, .lifo 1]) : ∃ s,
    run (step (plain Unit) discipline) (initial Unit 1) lostWakeup = some s ∧ s.Quiescent ∧
    s.queue ≠ [] ∧ s.delegate.inflight = 0 := by
  have ended : ∀ discipline ∈ [Discipline.fifo, .lifo 1],
      (run (step (plain Unit) discipline) (initial Unit 1) lostWakeup).map
        (fun s => (s.queue, s.delegate.inflight, decide s.Quiescent)) = some ([1], 0, true) := by
    decide +kernel
  obtain ⟨s, ran, seen⟩ := Option.map_eq_some_iff.mp (ended discipline known)
  simp only [Prod.mk.injEq, decide_eq_true_eq] at seen
  obtain ⟨queue, inflight, quiescent⟩ := seen
  exact ⟨s, ran, quiescent, by simp [queue], inflight⟩

theorem lostWakeup_parked :
    (¬ ∀ s, run (step (plain Unit) .fifo) (initial Unit 1) lostWakeup = some s → s.Quiescent →
      s.queue ≠ [] → s.delegate.inflight = 1) ∧
    ¬ ∀ s, run (step (plain Unit) (.lifo 1)) (initial Unit 1) lostWakeup = some s → s.Quiescent →
      s.queue ≠ [] → s.delegate.inflight = 1 := by
  constructor
  · intro full
    obtain ⟨s, ran, quiescent, parked, free⟩ := lostWakeup_ends .fifo (by decide)
    have inflight := full s ran quiescent parked
    omega
  · intro full
    obtain ⟨s, ran, quiescent, parked, free⟩ := lostWakeup_ends (.lifo 1) (by decide)
    have inflight := full s ran quiescent parked
    omega
end State
end Limen.BlockingLimiter
