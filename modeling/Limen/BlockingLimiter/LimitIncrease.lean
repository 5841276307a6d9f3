import Limen.BlockingLimiter.Registration
import Limen.BlockingLimiter.Wakeup

/-! Operations one at a time. Nothing but a completion runs `Unblock`: a cap that is raised
above the requests in flight reaches those who are parked with the next release. -/
namespace Limen.BlockingLimiter
open Transition
open AbstractLimiter (Counters)
variable {Ctx : Type} {bypass : Ctx → Bool} {discipline : Discipline}

/-- An `emplace` that finds its key taken gives a slot back, and nobody runs `Unblock`. -/
def Phase.Heeds (s : State Ctx (Counters Unit)) : Phase → Prop
  | .registering ticket inner => (s.activeSlots (slotId ticket)).isSome → s.queue ≠ [] →
    inner.slot.bypassed = true ∨ s.delegate.limit < s.delegate.inflight
  | _ => True

instance (s : State Ctx (Counters Unit)) : (phase : Phase) → Decidable (phase.Heeds s)
  | .registering _ _ => inferInstanceAs (Decidable (_ → _))
  | .trying | .numbering _ | .parking | .waiting _ | .awake _ | .refused | .held _ _
  | .extracting _ _ _ | .mirroring _ _ _ | .unblocking _ _ | .completed _ _ => .isTrue trivial

def Phase.unblocks : Phase → Bool
  | .unblocking _ _ => true
  | _ => false

/-- A call is about to park right after the delegate has refused it. -/
theorem Moves.refused {i : Nat} {context : Ctx} {s s' : Shared (Counters Unit)} {input : Input}
    {phase next : Phase} {made : Option (Slot Unit)}
    (moved : Moves (simpleDelegate bypass) discipline i context s input phase s' next made)
    (parking : next = .parking) : s'.delegate.limit ≤ s'.delegate.inflight := by
  cases moved with
  | rejected tried =>
    obtain ⟨limit, full, inflight⟩ := simple_refuses tried
    simp only [limit, inflight]
    exact full
  | _ => contradiction

namespace State
variable {s t : State Ctx (Counters Unit)} {e : Event Ctx}

/-- The event lets a call go on that is inside the limiter. -/
def Continues (s : State Ctx (Counters Unit)) : Event Ctx → Prop
  | .advance i _ => s.requests[i]?.any fun r => !r.phase.idle
  | .tryAcquire _ | .guard _ | .setLimit _ => False

/-- An operation begins, or a parked caller comes back, only when nobody else is inside. -/
def Serial (s : State Ctx (Counters Unit)) (e : Event Ctx) : Prop := s.Continues e ∨ s.Quiescent

/-- The cap is not raised above the requests in flight while somebody is parked. -/
def Heeds (s : State Ctx (Counters Unit)) : Event Ctx → Prop
  | .setLimit value => s.queue ≠ [] → value ≤ s.delegate.inflight
  | .advance i _ => ∀ r ∈ s.requests[i]?, r.phase.Heeds s
  | .tryAcquire _ | .guard _ => True

/-- The cap goes above the requests in flight while somebody is parked. -/
def Raises (s : State Ctx (Counters Unit)) : Event Ctx → Prop
  | .setLimit value => s.queue ≠ [] ∧ s.delegate.inflight < value
  | .advance _ _ | .tryAcquire _ | .guard _ => False

/-- A completion runs `Unblock`. -/
def Unblocks (s : State Ctx (Counters Unit)) : Event Ctx → Prop
  | .advance i _ => s.requests[i]?.any fun r => r.phase.unblocks
  | .tryAcquire _ | .guard _ | .setLimit _ => False

instance (s : State Ctx (Counters Unit)) : (e : Event Ctx) → Decidable (s.Raises e)
  | .setLimit _ => inferInstanceAs (Decidable (_ ∧ _))
  | .advance _ _ | .tryAcquire _ | .guard _ => .isFalse id

instance (s : State Ctx (Counters Unit)) : (e : Event Ctx) → Decidable (s.Continues e)
  | .advance i _ => inferInstanceAs (Decidable (s.requests[i]?.any _ = true))
  | .tryAcquire _ | .guard _ | .setLimit _ => .isFalse id

instance (s : State Ctx (Counters Unit)) (e : Event Ctx) : Decidable (s.Serial e) :=
  inferInstanceAs (Decidable (_ ∨ _))

instance (s : State Ctx (Counters Unit)) : (e : Event Ctx) → Decidable (s.Heeds e)
  | .setLimit _ => inferInstanceAs (Decidable (_ → _))
  | .advance i _ => inferInstanceAs (Decidable (∀ r ∈ s.requests[i]?, _))
  | .tryAcquire _ | .guard _ => .isTrue trivial

/-- One call at most is inside the limiter, and one that is about to park was refused by
the delegate as it is now. -/
structure OneAtATime (s : State Ctx (Counters Unit)) : Prop where
  valid : s.Valid
  alone : ∀ (i j : Nat) r r', s.requests[i]? = some r → s.requests[j]? = some r' →
    r.phase.idle = false → r'.phase.idle = false → i = j
  parking : ∀ (i : Nat) r, s.requests[i]? = some r → r.phase = .parking →
    s.delegate.limit ≤ s.delegate.inflight

theorem Quiescent.idle (quiescent : s.Quiescent) {i : Nat} {r : Request Ctx}
    (found : s.requests[i]? = some r) : r.phase.idle = true :=
  quiescent r (List.mem_of_getElem? found)

theorem Quiescent.not_parking (quiescent : s.Quiescent) {i : Nat} {r : Request Ctx}
    (found : s.requests[i]? = some r) : r.phase ≠ .parking := by
  intro atPark
  have idle := quiescent.idle found
  rw [atPark] at idle
  contradiction

theorem quiescent_iff :
    s.Quiescent ↔ ∀ (i : Nat) r, s.requests[i]? = some r → r.phase.idle = true := by
  constructor
  · intro quiescent i r found
    exact quiescent.idle found
  · intro idle r member
    obtain ⟨i, found⟩ := List.mem_iff_getElem?.mp member
    exact idle i r found

/-- Where one call steps, the others are idle. -/
theorem OneAtATime.others {i j : Nat} {input : Input} {r : Request Ctx} (once : s.OneAtATime)
    (serial : s.Serial (.advance i input)) (found : s.requests[j]? = some r) (other : j ≠ i) :
    r.phase.idle = true := by
  rcases serial with inside | quiescent
  · obtain ⟨r', found', moving⟩ : ∃ r', s.requests[i]? = some r' ∧ r'.phase.idle = false := by
      simpa [Continues, Option.any_eq_true] using inside
    by_contra active
    exact other (once.alone j i r r' found found' (by simpa using active) moving)
  · exact quiescent.idle found

/-- Where nobody is inside but one call that is not about to park, calls take turns. -/
theorem oneAtATime_of_idle {i : Nat} (valid : s.Valid)
    (idle : ∀ (j : Nat) r, s.requests[j]? = some r → j ≠ i → r.phase.idle = true)
    (parking : ∀ r, s.requests[i]? = some r → r.phase = .parking →
      s.delegate.limit ≤ s.delegate.inflight) : s.OneAtATime := by
  have inside {j : Nat} {r : Request Ctx} (found : s.requests[j]? = some r)
      (active : r.phase.idle = false) : j = i := by
    by_contra other
    rw [idle j r found other] at active
    contradiction
  refine ⟨valid, ?_, ?_⟩
  · intro j k r r' found found' active active'
    exact (inside found active).trans (inside found' active').symm
  · intro j r found atPark
    obtain rfl := inside found (by rw [atPark]; rfl)
    exact parking r found atPark

/-- Whichever step a call makes, nobody else comes inside. -/
theorem oneAtATime_advance {i : Nat} {input : Input} (once : s.OneAtATime)
    (serial : s.Serial (.advance i input))
    (stepped : s.step (simpleDelegate bypass) discipline (.advance i input) = some t) :
    t.OneAtATime := by
  have valid := valid_step once.valid stepped
  obtain ⟨r, found, ⟨admission, call, atUnblock, rfl⟩ |
    ⟨shared, next, made, heap, moved, _, rfl⟩⟩ := step_advance stepped
  · have kept : (unblock (simpleDelegate bypass) input.now s.queue s).requests[i]? = some r :=
      unblock_keeps once.valid found (by rw [atUnblock]; rfl)
    refine oneAtATime_of_idle (i := i) valid ?_ ?_
    · intro j r' found' other
      rw [Pool.getElem?_modify_other _ other] at found'
      by_contra active
      obtain ⟨r'', before, active⟩ := unblock_origin (Q := fun phase => ¬ phase.idle = true)
        (fun {phase} inner active => by cases phase <;> exact active) found' active
      exact active (once.others serial before other)
    · intro r' found' atPark
      rw [Pool.getElem?_modify_self _ kept, Option.some.injEq] at found'
      rw [← found'] at atPark
      contradiction
  · refine oneAtATime_of_idle (i := i) valid ?_ ?_
    · intro j r' found' other
      rw [Pool.getElem?_modify_other _ other] at found'
      exact once.others serial found' other
    · intro r' found' atPark
      rw [Pool.getElem?_modify_self _ found, Option.some.injEq] at found'
      rw [← found'] at atPark
      exact moved.refused atPark

theorem oneAtATime_step (once : s.OneAtATime) (serial : s.Serial e)
    (stepped : s.step (simpleDelegate bypass) discipline e = some t) : t.OneAtATime := by
  have valid := valid_step once.valid stepped
  cases e with
  | tryAcquire context =>
    have quiescent : s.Quiescent := serial.resolve_left id
    cases stepped
    refine oneAtATime_of_idle (i := s.requests.length) valid ?_ ?_
    · intro j r found other
      rcases Pool.getElem?_concat_eq_some.mp found with before | ⟨here, _⟩
      · exact quiescent.idle before
      · exact absurd here other
    · intro r found atPark
      rcases Pool.getElem?_concat_eq_some.mp found with before | ⟨_, rfl⟩
      · exact absurd atPark (quiescent.not_parking before)
      · contradiction
  | setLimit value =>
    have quiescent : s.Quiescent := serial.resolve_left id
    cases stepped
    refine oneAtATime_of_idle (i := 0) valid ?_ ?_
    · intro j r found _
      exact quiescent.idle found
    · intro r found atPark
      exact absurd atPark (quiescent.not_parking found)
  | guard op =>
    have quiescent : s.Quiescent := serial.resolve_left id
    rcases step_guard once.valid stepped with
      ⟨heap, rfl, _⟩ | ⟨heap, call, r, ticket, admission, found, _, _, rfl, _⟩
    · exact ⟨valid, once.alone, once.parking⟩
    · refine oneAtATime_of_idle (i := call.id) valid ?_ ?_
      · intro j r' found' other
        rw [Pool.getElem?_modify_other _ other] at found'
        exact quiescent.idle found'
      · intro r' found' atPark
        rw [Pool.getElem?_modify_self _ found, Option.some.injEq] at found'
        rw [← found'] at atPark
        contradiction
  | advance i input => exact oneAtATime_advance once serial stepped

theorem initial_oneAtATime (limit : Int) : (initial Ctx limit).OneAtATime where
  valid := start_valid _
  alone := by simp [initial, start]
  parking := by simp [initial, start]

theorem run_oneAtATime {limit : Int} {es : List (Event Ctx)}
    (ran : run (step (simpleDelegate bypass) discipline) (initial Ctx limit) es = some s)
    (serial : Along (step (simpleDelegate bypass) discipline) Serial (initial Ctx limit) es) :
    s.OneAtATime := invariant_along oneAtATime_step ran serial (initial_oneAtATime limit)

/-- Whoever is parked stands behind a full delegate or has `Unblock` to come. -/
def Covered (s : State Ctx (Counters Unit)) : Prop :=
  s.queue ≠ [] → s.delegate.limit ≤ s.delegate.inflight ∨ Releasing s.requests

theorem covered_advance {i : Nat} {input : Input} {r : Request Ctx}
    {shared : Shared (Counters Unit)} {next : Phase} {made : Option (Slot Unit)} {heap : Heap Unit}
    (once : s.OneAtATime) (covered : s.Covered) (found : s.requests[i]? = some r)
    (heeds : r.phase.Heeds s)
    (moved : Moves (simpleDelegate bypass) discipline i r.context s.toShared input r.phase shared
      next made) :
    Covered { s with toShared := shared, requests := s.requests.modify i (.moveTo next), heap } := by
  have others (idle : r.phase.releasing = false) (releasing : Releasing s.requests) :
      Releasing (s.requests.modify i (.moveTo next)) :=
    releasing_modify found (fun here => by rw [idle] at here; contradiction) releasing
  have same (idle : r.phase.releasing = false) (queue : s.queue ≠ []) :
      s.delegate.limit ≤ s.delegate.inflight ∨ Releasing (s.requests.modify i (.moveTo next)) :=
    (covered queue).imp id (others idle)
  have parking := once.parking i r found
  obtain ⟨context, phase⟩ := r
  dsimp only at *
  cases moved with
  | @admitted delegate slot tried =>
    obtain ⟨limit, inflight, _⟩ := simple_admits tried
    intro queue
    refine (same rfl queue).imp ?_ id
    intro full
    simp only [limit, inflight]
    split <;> omega
  | rejected tried =>
    obtain ⟨limit, full, inflight⟩ := simple_refuses tried
    intro _
    simp only [limit, inflight]
    exact .inl full
  | numbered inner => exact same rfl
  | registered inner free => exact same rfl
  | @collided ticket inner other taken =>
    intro queue
    simp only [complete_limit, complete_inflight]
    rcases heeds (by rw [taken]; rfl) queue with bypassed | more
    · simpa [bypassed] using same rfl queue
    · refine .inl ?_
      split <;> omega
  | turnedAway full => exact same rfl
  | parked parks => exact fun _ => .inl (parking rfl)
  | woken waiter => exact same rfl
  | delivered slot => exact same rfl
  | timedOut empty =>
    intro remaining
    exact same rfl (Discipline.ne_nil_of_withdraw once.valid.nodup remaining)
  | extracted | missing | mirrored => exact fun _ => .inr (releasing_here found rfl)

/-- `Unblock` leaves nobody parked before a free slot, whatever it found. -/
theorem covered_unblock {i : Nat} {input : Input} {r : Request Ctx} {admission : Grant}
    {call : Completion Unit} (valid : s.Valid) (found : s.requests[i]? = some r)
    (atUnblock : r.phase = .unblocking admission call)
    (stepped : s.step (simpleDelegate bypass) discipline (.advance i input) = some t) :
    t.Covered := by
  obtain ⟨r', found', ⟨_, _, _, rfl⟩ | ⟨shared, next, made, heap, moved, _, rfl⟩⟩ :=
    step_advance stepped
  · intro queue
    have limit : (unblock (simpleDelegate bypass) input.now s.queue s).delegate.limit =
      s.delegate.limit := unblock_limit input.now
    have drained : (unblock (simpleDelegate bypass) input.now s.queue s).queue = [] ∨
        s.delegate.limit ≤ (unblock (simpleDelegate bypass) input.now s.queue s).delegate.inflight :=
      unblock_drains input.now rfl valid rfl
    rcases drained with empty | full
    · exact absurd empty queue
    · exact .inl (limit.trans_le full)
  · obtain rfl : r = r' := Option.some.inj (found.symm.trans found')
    rw [atUnblock] at moved
    cases moved

theorem covered_step (once : s.OneAtATime) (covered : s.Covered) (heeds : s.Heeds e)
    (stepped : s.step (simpleDelegate bypass) discipline e = some t) : t.Covered := by
  cases e with
  | tryAcquire context =>
    cases stepped
    intro queue
    refine (covered queue).imp id ?_
    rintro ⟨r, member, releasing⟩
    exact ⟨r, List.mem_append_left _ member, releasing⟩
  | setLimit value =>
    cases stepped
    exact fun queue => .inl (heeds queue)
  | guard op =>
    rcases step_guard once.valid stepped with
      ⟨heap, rfl, _⟩ | ⟨heap, call, r, ticket, admission, found, _, _, rfl, _⟩
    · exact covered
    · exact fun _ => .inr (releasing_here found rfl)
  | advance i input =>
    obtain ⟨r, found, ⟨admission, call, atUnblock, _⟩ |
      ⟨shared, next, made, heap, moved, _, rfl⟩⟩ := step_advance stepped
    · exact covered_unblock once.valid found atUnblock stepped
    · exact covered_advance once covered found (heeds r found) moved

theorem run_covered {limit : Int} {es : List (Event Ctx)}
    (ran : run (step (simpleDelegate bypass) discipline) (initial Ctx limit) es = some s)
    (serial : Along (step (simpleDelegate bypass) discipline) Serial (initial Ctx limit) es)
    (heeds : Along (step (simpleDelegate bypass) discipline) Heeds (initial Ctx limit) es) :
    s.Covered := by
  refine (invariant_along (P := fun s => s.OneAtATime ∧ s.Covered) ?_ ran (serial.and heeds)
    ⟨initial_oneAtATime limit, fun queue => absurd rfl queue⟩).2
  rintro s e t ⟨once, covered⟩ ⟨serial, heeds⟩ stepped
  exact ⟨oneAtATime_step once serial stepped, covered_step once covered heeds stepped⟩

/-- What the raised cap is to reach: nobody stays parked while the delegate would admit. -/
def Reached (s : State Ctx (Counters Unit)) : Prop :=
  s.Quiescent → s.queue ≠ [] → s.delegate.limit ≤ s.delegate.inflight

/-- A step that does not heed the queue leads to a state in which somebody is parked and a
slot is free. -/
theorem heeds_of_reached (once : s.OneAtATime) (serial : s.Serial e)
    (stepped : s.step (simpleDelegate bypass) discipline e = some t) (reached : t.Reached) :
    s.Heeds e := by
  cases e with
  | tryAcquire | guard => trivial
  | setLimit value =>
    have quiescent : s.Quiescent := serial.resolve_left id
    cases stepped
    exact fun queue => reached quiescent queue
  | advance i input =>
    intro r found
    cases phase : r.phase with
    | registering ticket inner =>
      intro taken queue
      obtain ⟨r', found', ⟨_, _, atUnblock, _⟩ | ⟨shared, next, made, heap, moved, _, rfl⟩⟩ :=
        step_advance stepped
      · obtain rfl : r = r' := by simpa [found'] using found.symm
        rw [phase] at atUnblock
        contradiction
      · obtain rfl : r = r' := by simpa [found'] using found.symm
        rw [phase] at moved
        cases moved with
        | registered inner free =>
          rw [free] at taken
          contradiction
        | collided inner present =>
          by_contra neither
          rw [not_or] at neither
          have quiescent : Quiescent { s with
              toShared := s.complete (simpleDelegate bypass) inner .ignored (input.now 0)
              requests := s.requests.modify i (.moveTo (.held ticket inner)), heap } := by
            rw [quiescent_iff]
            intro j r' found'
            rcases Pool.getElem?_modify_cases found found' with ⟨rfl, rfl⟩ | ⟨other, before⟩
            · rfl
            · exact once.others serial before other
          have full := reached quiescent queue
          simp only [complete_limit, complete_inflight, neither.1, Bool.false_eq_true, if_false]
            at full
          exact neither.2 (by omega)
    | _ => trivial

/-- Operations one at a time: nobody is left parked before a free slot, after any of them, if
and only if the cap is never raised above the requests in flight while somebody is parked
and no id that comes round gives a slot back behind the queue. -/
theorem reached_iff_heeds {limit : Int} {es : List (Event Ctx)}
    (ran : run (step (simpleDelegate bypass) discipline) (initial Ctx limit) es = some s)
    (serial : Along (step (simpleDelegate bypass) discipline) Serial (initial Ctx limit) es) :
    (∀ u, Visits (step (simpleDelegate bypass) discipline) (initial Ctx limit) es u → u.Reached) ↔
      Along (step (simpleDelegate bypass) discipline) Heeds (initial Ctx limit) es := by
  constructor
  · intro reached
    rw [along_iff]
    rintro before e after u rfl toU
    obtain ⟨u', toU', onward⟩ := run_append_eq_some.mp ran
    obtain rfl : u = u' := by simpa [toU] using toU'
    obtain ⟨v, stepped, _⟩ := run_cons_eq_some.mp onward
    have toV := run_append_eq_some.mpr ⟨u, toU, (run_single u e).trans stepped⟩
    have visited := (visits_last toV).append after
    rw [List.append_assoc] at visited
    exact heeds_of_reached (run_oneAtATime toU serial.left) (serial.right toU).1 stepped
      (reached v visited)
  · rintro heeds u ⟨before, after, rfl, toU⟩ quiescent queue
    have covered := run_covered toU serial.left heeds.left
    exact (covered queue).resolve_right quiescent.not_releasing

/-- The cap is lowered while somebody is parked, and raised again when nobody is. -/
def loweredAndRaised : List (Event Unit) :=
  [.tryAcquire (), .advance 0 {}, .advance 0 {}, .advance 0 {},
    .tryAcquire (), .advance 1 {}, .advance 1 {}, .advance 1 { addr := 1 },
    .tryAcquire (), .advance 2 {}, .advance 2 {}, .setLimit 1,
    .guard (.complete 0 .success), .advance 0 {}, .advance 0 {}, .advance 0 {},
    .guard (.complete 1 .success), .advance 1 {}, .advance 1 {}, .advance 1 {},
    .setLimit 3, .advance 2 {}, .advance 2 {}, .advance 2 {}, .advance 2 { addr := 2 }]

theorem loweredAndRaised_reached : ∃ s,
    run (step (plain Unit) .fifo) (initial Unit 2) loweredAndRaised = some s ∧
    ∀ u, Visits (step (plain Unit) .fifo) (initial Unit 2) loweredAndRaised u → u.Reached := by
  have ended : (run (step (plain Unit) .fifo) (initial Unit 2) loweredAndRaised).isSome := by
    decide +kernel
  have serial : Along (step (plain Unit) .fifo) Serial (initial Unit 2) loweredAndRaised := by
    decide +kernel
  have heeds : Along (step (plain Unit) .fifo) Heeds (initial Unit 2) loweredAndRaised := by
    decide +kernel
  obtain ⟨s, ran⟩ := Option.isSome_iff_exists.mp ended
  exact ⟨s, ran, (reached_iff_heeds ran serial).mpr heeds⟩

/-- While ids do not come round, a step that does not raise the cap heeds the queue. -/
theorem heeds_of_unraised (registered : s.Registered) (few : s.nextSlotId ≤ 2 ^ 32)
    (unraised : ¬ s.Raises e) : s.Heeds e := by
  cases e with
  | tryAcquire | guard => trivial
  | setLimit value =>
    intro queue
    by_contra above
    exact unraised ⟨queue, Int.not_le.mp above⟩
  | advance i input =>
    intro r found
    cases phase : r.phase with
    | registering ticket inner =>
      intro taken
      have free : s.activeSlots (slotId ticket) = none :=
        key_free registered found (fun _ taken => apart_of_few registered few found taken) ticket
          inner phase
      rw [free] at taken
      contradiction
    | _ => trivial

theorem run_unraised {es : List (Event Ctx)} (once : s.OneAtATime)
    (registered : s.nextSlotId ≤ 2 ^ 32 → s.Registered) (covered : s.Covered)
    (ran : run (step (simpleDelegate bypass) discipline) s es = some t)
    (serial : Along (step (simpleDelegate bypass) discipline) Serial s es)
    (unraised : Along (step (simpleDelegate bypass) discipline) (fun u e => ¬ u.Raises e) s es)
    (few : t.nextSlotId ≤ 2 ^ 32) : t.Covered := by
  refine ((invariant_along (P := fun u : State Ctx (Counters Unit) => u.OneAtATime ∧
    (u.nextSlotId ≤ 2 ^ 32 → u.Registered ∧ u.Covered)) ?_ ran (serial.and unraised)
    ⟨once, fun few => ⟨registered few, covered⟩⟩).2 few).2
  rintro u e v ⟨once, kept⟩ ⟨serial, unraised⟩ stepped
  refine ⟨oneAtATime_step once serial stepped, fun few => ?_⟩
  have before := (nextSlotId_step once.valid stepped).trans few
  obtain ⟨registered, covered⟩ := kept before
  refine ⟨registered_step once.valid registered ?_ stepped,
    covered_step once covered (heeds_of_unraised registered before unraised) stepped⟩
  intro i input r ticket _ found taken
  exact apart_of_few registered before found taken

/-- Operations one at a time, as long as ids do not come round. A completion leaves nobody parked
before a free slot, whatever became of the cap before it, and nothing but a cap that is raised
above the requests in flight, while somebody is parked, leaves anybody there later. -/
theorem reached_until_raised {limit : Int} {before since : List (Event Ctx)}
    {u : State Ctx (Counters Unit)}
    (ran : run (step (simpleDelegate bypass) discipline) (initial Ctx limit) before = some u)
    (onward : run (step (simpleDelegate bypass) discipline) u since = some s)
    (serial : Along (step (simpleDelegate bypass) discipline) Serial (initial Ctx limit)
      (before ++ since))
    (few : s.nextSlotId ≤ 2 ^ 32)
    (settled : (u.Quiescent ∧ u.Reached) ∨ ∃ first e v, before = first ++ [e] ∧
      run (step (simpleDelegate bypass) discipline) (initial Ctx limit) first = some v ∧
      v.Unblocks e)
    (unraised : Along (step (simpleDelegate bypass) discipline) (fun v e => ¬ v.Raises e) u since) :
    s.Reached := by
  have covered : u.Covered := by
    rcases settled with ⟨quiescent, reached⟩ | ⟨first, e, v, rfl, toV, unblocks⟩
    · exact fun queue => .inl (reached quiescent queue)
    · obtain ⟨v', toV', last⟩ := run_append_eq_some.mp ran
      obtain rfl : v = v' := Option.some.inj (toV.symm.trans toV')
      rw [run_single] at last
      cases e with
      | advance i input =>
        obtain ⟨r, found, here⟩ : ∃ r, v.requests[i]? = some r ∧ r.phase.unblocks = true := by
          simpa [Unblocks, Option.any_eq_true] using unblocks
        cases atUnblock : r.phase with
        | unblocking admission call => exact covered_unblock (run_valid toV) found atUnblock last
        | _ => simp [atUnblock, Phase.unblocks] at here
      | tryAcquire | guard | setLimit => exact unblocks.elim
  have once : u.OneAtATime := run_oneAtATime ran serial.left
  intro quiescent queue
  have behind : s.Covered :=
    run_unraised once (run_registered ran) covered onward (serial.right ran) unraised few
  exact (behind queue).resolve_right quiescent.not_releasing

/-- Three callers are parked behind the first when the cap goes up to two, and its completion
serves two of them. -/
def raisedThenReleased : List (Event Unit) :=
  [.tryAcquire (), .advance 0 {}, .advance 0 {}, .advance 0 {},
    .tryAcquire (), .advance 1 {}, .advance 1 {}, .tryAcquire (), .advance 2 {}, .advance 2 {},
    .tryAcquire (), .advance 3 {}, .advance 3 {}, .setLimit 2,
    .guard (.complete 0 .success), .advance 0 {}, .advance 0 {}, .advance 0 {}]

/-- One of the two returns, and the cap is lowered. -/
def servedThenLowered : List (Event Unit) :=
  [.advance 1 {}, .advance 1 {}, .advance 1 {}, .advance 1 { addr := 1 }, .setLimit 1]

theorem raisedThenReleased_reached : ∃ s,
    run (step (plain Unit) .fifo) (initial Unit 1) (raisedThenReleased ++ servedThenLowered) =
      some s ∧ s.queue = [3] ∧ s.delegate.limit ≤ s.delegate.inflight := by
  have parting : (run (step (plain Unit) .fifo) (initial Unit 1) (raisedThenReleased.take 17)).map
      (fun s => s.requests[0]?.any fun r => r.phase.unblocks) = some true := by decide +kernel
  have ended : (run (step (plain Unit) .fifo) (initial Unit 1)
      (raisedThenReleased ++ servedThenLowered)).map
        (fun s => (s.queue, s.nextSlotId, decide s.Quiescent)) = some ([3], 2, true) := by
    decide +kernel
  have serial : Along (step (plain Unit) .fifo) Serial (initial Unit 1)
      (raisedThenReleased ++ servedThenLowered) := by decide +kernel
  have lowering : (run (step (plain Unit) .fifo) (initial Unit 1) raisedThenReleased).map (fun u =>
      decide (Along (step (plain Unit) .fifo) (fun v e => ¬ v.Raises e) u servedThenLowered)) =
        some true := by decide +kernel
  obtain ⟨v, toV, unblocks⟩ := Option.map_eq_some_iff.mp parting
  obtain ⟨u, toU, unraised⟩ := Option.map_eq_some_iff.mp lowering
  obtain ⟨s, ran, seen⟩ := Option.map_eq_some_iff.mp ended
  simp only [Prod.mk.injEq, decide_eq_true_eq] at seen
  obtain ⟨queue, ids, quiescent⟩ := seen
  obtain ⟨u', toU', onward⟩ := run_append_eq_some.mp ran
  obtain rfl : u = u' := Option.some.inj (toU.symm.trans toU')
  have reached : s.Reached := reached_until_raised toU onward serial (by omega)
    (.inr ⟨raisedThenReleased.take 17, .advance 0 {}, v, rfl, toV, unblocks⟩)
    (of_decide_eq_true unraised)
  exact ⟨s, ran, queue, reached quiescent (by simp [queue])⟩

/-- The cap is raised from one to two while the second caller is parked. -/
def raised : List (Event Unit) :=
  [.tryAcquire (), .advance 0 {}, .advance 0 {}, .advance 0 {},
    .tryAcquire (), .advance 1 {}, .advance 1 {}, .setLimit 2]

theorem raised_ends (discipline : Discipline) (known : discipline ∈ [.fifo, .lifo 1]) : ∃ s,
    run (step (plain Unit) discipline) (initial Unit 1) raised = some s ∧
    Along (step (plain Unit) discipline) Serial (initial Unit 1) raised ∧ ¬ s.Reached := by
  have ended : ∀ discipline ∈ [Discipline.fifo, .lifo 1],
      (run (step (plain Unit) discipline) (initial Unit 1) raised).map (fun s =>
        (s.queue, s.delegate.inflight, s.delegate.limit, decide s.Quiescent)) =
          some ([1], 1, 2, true) ∧
      Along (step (plain Unit) discipline) Serial (initial Unit 1) raised := by
    decide +kernel
  obtain ⟨seen, serial⟩ := ended discipline known
  obtain ⟨s, ran, seen⟩ := Option.map_eq_some_iff.mp seen
  simp only [Prod.mk.injEq, decide_eq_true_eq] at seen
  obtain ⟨queue, inflight, limit, quiescent⟩ := seen
  refine ⟨s, ran, serial, fun reached => ?_⟩
  have full := reached quiescent (by simp [queue])
  omega

theorem raised_unnoticed :
    (¬ ∀ s, run (step (plain Unit) .fifo) (initial Unit 1) raised = some s →
      Along (step (plain Unit) .fifo) Serial (initial Unit 1) raised → s.Reached) ∧
    ¬ ∀ s, run (step (plain Unit) (.lifo 1)) (initial Unit 1) raised = some s →
      Along (step (plain Unit) (.lifo 1)) Serial (initial Unit 1) raised → s.Reached := by
  constructor
  · intro reached
    obtain ⟨s, ran, serial, parked⟩ := raised_ends .fifo (by decide)
    exact parked (reached s ran serial)
  · intro reached
    obtain ⟨s, ran, serial, parked⟩ := raised_ends (.lifo 1) (by decide)
    exact parked (reached s ran serial)
end State
end Limen.BlockingLimiter
