import Limen.BlockingLimiter

/-! What a step of the blocking limiters can do, and what every reachable state has in
order: the outer guards, the wait queue and the calls agree. -/
namespace Limen.BlockingLimiter
open Transition
variable {Ctx δ : Type} {d : Delegate Ctx δ} {discipline : Discipline}

section Simple
variable {bypass : Ctx → Bool} {c c' : AbstractLimiter.Counters Unit} {context : Ctx} {now : Int}

theorem simple_refuses (refused : (simpleDelegate bypass).tryAcquire c context now = (c', none)) :
    c'.limit = c.limit ∧ c.limit ≤ c.inflight ∧ c'.inflight = c.inflight := by
  have tried : SimpleLimiter.tryAcquire bypass c context now = (c', none) := refused
  obtain ⟨limit, ⟨_, impossible, _⟩ | ⟨_, _, full, kept⟩ | ⟨_, _, impossible, _⟩⟩ :=
    SimpleLimiter.tryAcquire_cases tried
  · contradiction
  · exact ⟨limit, full, kept⟩
  · contradiction

/-- A slot that is not bypassed costs one, and is granted below the limit only. -/
theorem simple_admits {slot : Slot Unit}
    (admitted : (simpleDelegate bypass).tryAcquire c context now = (c', some slot)) :
    c'.limit = c.limit ∧ c'.inflight = c.inflight + (if slot.bypassed then 0 else 1) ∧
      (bypass context = false → slot.bypassed = false ∧ c.inflight < c.limit) := by
  have tried : SimpleLimiter.tryAcquire bypass c context now = (c', some slot) := admitted
  obtain ⟨limit, ⟨bypassed, granted, same⟩ | ⟨_, impossible, _⟩ |
    ⟨slot', _, granted, limited, free, after⟩⟩ := SimpleLimiter.tryAcquire_cases tried
  · cases granted
    refine ⟨limit, same.trans (Int.add_zero _).symm, fun limited => ?_⟩
    rw [bypassed] at limited
    contradiction
  · contradiction
  · cases granted
    rw [limited]
    exact ⟨limit, after, fun _ => ⟨rfl, free⟩⟩

/-- The completion of an inner slot gives back what the slot cost. -/
theorem complete_limit (s : Shared (AbstractLimiter.Counters Unit)) (inner : Grant)
    (status : CompletionStatus) :
    (s.complete (simpleDelegate bypass) inner status now).delegate.limit = s.delegate.limit :=
  SimpleLimiter.onSlotComplete_limit ..

theorem complete_inflight (s : Shared (AbstractLimiter.Counters Unit)) (inner : Grant)
    (status : CompletionStatus) :
    (s.complete (simpleDelegate bypass) inner status now).delegate.inflight =
      s.delegate.inflight - if inner.slot.bypassed then 0 else 1 :=
  SimpleLimiter.onSlotComplete_inflight ..
end Simple

/-- The outer guard that a call has returned and nobody has completed. -/
def Phase.outer? : Phase → Option (Slot Unit)
  | .held ticket _ => some (outerSlot ticket)
  | _ => none

def Phase.waiter? : Phase → Option WaiterSlot
  | .waiting waiter | .awake waiter => some waiter
  | _ => none

/-- A completion in progress is that of the call's own outer guard. -/
def Phase.Own (i : Nat) : Phase → Prop
  | .extracting ticket _ call => call.id = i ∧ call.slot = outerSlot ticket
  | .mirroring _ _ call | .unblocking _ call | .completed _ call => call.id = i
  | _ => True

namespace Discipline

theorem mem_park {i : Nat} {queue queue' : List Nat} (parked : park i queue discipline = some queue')
    (j : Nat) : j ∈ queue' ↔ j = i ∨ j ∈ queue := by
  cases discipline with
  | fifo =>
    cases parked
    simp [or_comm]
  | lifo backlogSize =>
    simp only [park] at parked
    split at parked
    · contradiction
    · cases parked
      simp

theorem nodup_park {i : Nat} {queue queue' : List Nat}
    (parked : park i queue discipline = some queue') (fresh : i ∉ queue) (nodup : queue.Nodup) :
    queue'.Nodup := by
  cases discipline with
  | fifo =>
    cases parked
    simp [List.nodup_append, nodup]
    rintro j member rfl
    exact fresh member
  | lifo backlogSize =>
    simp only [park] at parked
    split at parked
    · contradiction
    · cases parked
      simp [nodup, fresh]

theorem mem_withdraw {queue : List Nat} (nodup : queue.Nodup) (i j : Nat) :
    j ∈ withdraw i queue discipline ↔ j ∈ queue ∧ j ≠ i := by
  cases discipline with
  | fifo => rw [withdraw, nodup.mem_erase_iff, and_comm]
  | lifo backlogSize =>
    rw [withdraw, List.mem_reverse, (List.nodup_reverse.mpr nodup).mem_erase_iff,
      List.mem_reverse, and_comm]

theorem ne_nil_of_withdraw {queue : List Nat} (nodup : queue.Nodup) {i : Nat}
    (remaining : withdraw i queue discipline ≠ []) : queue ≠ [] := by
  obtain ⟨j, member⟩ := List.exists_mem_of_ne_nil _ remaining
  exact List.ne_nil_of_mem ((mem_withdraw nodup i j).mp member).1

theorem nodup_withdraw {queue : List Nat} (nodup : queue.Nodup) (i : Nat) :
    (withdraw i queue discipline).Nodup := by
  cases discipline with
  | fifo => exact nodup.erase i
  | lifo backlogSize =>
    exact List.nodup_reverse.mpr ((List.nodup_reverse.mpr nodup).erase i)
end Discipline

section Advance
variable {i : Nat} {context : Ctx} {s s' : Shared δ} {input : Input} {phase next : Phase}
  {made : Option (Slot Unit)}

/-- The steps of a call, `Unblock` excepted, one by one. -/
inductive Moves (d : Delegate Ctx δ) (discipline : Discipline) (i : Nat) (context : Ctx)
    (s : Shared δ) (input : Input) : Phase → Shared δ → Phase → Option (Slot Unit) → Prop
  | admitted {delegate : δ} {slot : Slot Unit}
      (tried : d.tryAcquire s.delegate context (input.now 0) = (delegate, some slot)) :
      Moves d discipline i context s input .trying
        { s with delegate, granted := s.granted + 1 } (.numbering ⟨s.granted, slot⟩) none
  | rejected {delegate : δ}
      (tried : d.tryAcquire s.delegate context (input.now 0) = (delegate, none)) :
      Moves d discipline i context s input .trying { s with delegate } .parking none
  | numbered (inner : Grant) :
      Moves d discipline i context s input (.numbering inner)
        { s with nextSlotId := s.nextSlotId + 1 } (.registering s.nextSlotId inner) none
  | registered {ticket : Nat} (inner : Grant) (free : s.activeSlots (slotId ticket) = none) :
      Moves d discipline i context s input (.registering ticket inner)
        { s with activeSlots := Function.update s.activeSlots (slotId ticket) (some inner) }
        (.held ticket inner) (some (outerSlot ticket))
  | collided {ticket : Nat} (inner : Grant) {other : Grant}
      (taken : s.activeSlots (slotId ticket) = some other) :
      Moves d discipline i context s input (.registering ticket inner)
        (s.complete d inner .ignored (input.now 0)) (.held ticket inner) (some (outerSlot ticket))
  | turnedAway (full : discipline.park i s.queue = none) :
      Moves d discipline i context s input .parking s .refused none
  | parked {queue : List Nat} (parks : discipline.park i s.queue = some queue) :
      Moves d discipline i context s input .parking { s with queue } (.waiting {}) none
  | woken (waiter : WaiterSlot) :
      Moves d discipline i context s input (.waiting waiter) s (.awake waiter) none
  | delivered {waiter : WaiterSlot} {inner : Grant} (slot : waiter.slot = some inner) :
      Moves d discipline i context s input (.awake waiter) s (.numbering inner) none
  | timedOut {waiter : WaiterSlot} (empty : waiter.slot = none) :
      Moves d discipline i context s input (.awake waiter)
        { s with queue := discipline.withdraw i s.queue } .refused none
  | extracted (ticket : Nat) (admission : Grant) (call : Completion Unit) :
      Moves d discipline i context s input (.extracting ticket admission call)
        { s with activeSlots := Function.update s.activeSlots call.slot.partitionIndex none }
        (.mirroring (s.activeSlots call.slot.partitionIndex) admission call) none
  | missing (admission : Grant) (call : Completion Unit) :
      Moves d discipline i context s input (.mirroring none admission call) s
        (.unblocking admission call) none
  | mirrored (inner admission : Grant) (call : Completion Unit) :
      Moves d discipline i context s input (.mirroring (some inner) admission call)
        (s.complete d inner call.status (input.now 0)) (.unblocking admission call) none

theorem advance_moves
    (advanced : phase.advance d discipline i context s input = some (s', next, made)) :
    Moves d discipline i context s input phase s' next made := by
  cases phase with
  | trying =>
    simp only [Phase.advance] at advanced
    split at advanced <;> cases advanced
    · exact .admitted ‹_›
    · exact .rejected ‹_›
  | numbering inner =>
    cases advanced
    exact .numbered inner
  | registering ticket inner =>
    simp only [Phase.advance] at advanced
    split at advanced <;> cases advanced
    · exact .registered inner ‹_›
    · exact .collided inner ‹_›
  | parking =>
    simp only [Phase.advance] at advanced
    split at advanced <;> cases advanced
    · exact .turnedAway ‹_›
    · exact .parked ‹_›
  | waiting waiter =>
    cases advanced
    exact .woken waiter
  | awake waiter =>
    simp only [Phase.advance] at advanced
    split at advanced <;> cases advanced
    · exact .delivered ‹_›
    · exact .timedOut ‹_›
  | extracting ticket admission call =>
    cases advanced
    exact .extracted ticket admission call
  | mirroring inner admission call =>
    cases inner with
    | none =>
      cases advanced
      exact .missing admission call
    | some inner =>
      cases advanced
      exact .mirrored inner admission call
  | refused | held | unblocking | completed => contradiction

theorem Moves.outer (moved : Moves d discipline i context s input phase s' next made) :
    phase.outer? = none ∧ next.outer? = made := by
  cases moved <;> exact ⟨rfl, rfl⟩

/-- A step parks its call, withdraws it, or leaves the queue as it is. -/
theorem Moves.queue (moved : Moves d discipline i context s input phase s' next made) :
    (phase.waiter? = none ∧ next.waiter? = none ∧ s'.queue = s.queue) ∨
      (phase = .parking ∧ next = .waiting {} ∧ discipline.park i s.queue = some s'.queue) ∨
      (∃ waiter, phase.waiter? = some waiter ∧ next.waiter? = some waiter ∧ s'.queue = s.queue) ∨
      (∃ waiter inner, phase.waiter? = some waiter ∧ waiter.slot = some inner ∧
        next.waiter? = none ∧ s'.queue = s.queue) ∨
      (∃ waiter, phase.waiter? = some waiter ∧ waiter.slot = none ∧ next = .refused ∧
        s'.queue = discipline.withdraw i s.queue) := by
  cases moved with
  | parked parks => exact .inr (.inl ⟨rfl, rfl, parks⟩)
  | woken waiter => exact .inr (.inr (.inl ⟨waiter, rfl, rfl, rfl⟩))
  | delivered slot => exact .inr (.inr (.inr (.inl ⟨_, _, rfl, slot, rfl, rfl⟩)))
  | timedOut empty => exact .inr (.inr (.inr (.inr ⟨_, rfl, empty, rfl, rfl⟩)))
  | _ => exact .inl ⟨rfl, rfl, rfl⟩

theorem Moves.own (own : phase.Own i)
    (moved : Moves d discipline i context s input phase s' next made) : next.Own i := by
  cases moved with
  | extracted ticket admission call => exact own.1
  | missing | mirrored => exact own
  | _ => trivial
end Advance

@[simp] theorem outer?_deliver (phase : Phase) (inner : Grant) :
    (phase.deliver inner).outer? = phase.outer? := by
  cases phase <;> rfl

theorem own_deliver {i : Nat} {phase : Phase} (own : phase.Own i) (inner : Grant) :
    (phase.deliver inner).Own i := by
  cases phase <;> exact own

namespace State
variable {s t : State Ctx δ} {e : Event Ctx}

/-- A step of a call is one of `DoTryAcquire` or `OnSlotComplete`, or all of `Unblock`. -/
theorem step_advance {i : Nat} {input : Input}
    (stepped : s.step d discipline (.advance i input) = some t) : ∃ r, s.requests[i]? = some r ∧
      ((∃ admission call, r.phase = .unblocking admission call ∧
        t = { unblock d input.now s.queue s with
          requests := (unblock d input.now s.queue s).requests.modify i
            (.moveTo (.completed admission call)) }) ∨
      ∃ shared next made heap,
        Moves d discipline i r.context s.toShared input r.phase shared next made ∧
        s.heap.construct input.addr i made = some heap ∧
        t = { s with toShared := shared, requests := s.requests.modify i (.moveTo next), heap }) := by
  simp only [step, Option.bind_eq_bind, Option.bind_eq_some_iff] at stepped
  obtain ⟨r, found, stepped⟩ := stepped
  refine ⟨r, found, ?_⟩
  split at stepped
  · rename_i admission call atUnblock
    cases stepped
    exact .inl ⟨admission, call, atUnblock, rfl⟩
  · simp only [Option.bind_eq_some_iff, Option.some.injEq] at stepped
    obtain ⟨⟨shared, next, made⟩, advanced, heap, constructed, rfl⟩ := stepped
    exact .inr ⟨shared, next, made, heap, advance_moves advanced, constructed, rfl⟩

/-- What the rounds of `Unblock` keep, `Unblock` keeps. -/
theorem unblock_invariant {P : State Ctx δ → Prop}
    (handsOff : ∀ {s w rest r delegate slot now}, P s → s.queue = w :: rest →
      s.requests[w]? = some r → d.tryAcquire s.delegate r.context now = (delegate, some slot) →
      P (s.handOff w rest delegate slot))
    (stops : ∀ {s w rest r delegate now}, P s → s.queue = w :: rest → s.requests[w]? = some r →
      d.tryAcquire s.delegate r.context now = (delegate, none) → P { s with delegate })
    {now : Nat → Int} {queue : List Nat} (same : s.queue = queue) (holds : P s) :
    P (unblock d now queue s) := by
  induction queue generalizing s with
  | nil => exact holds
  | cons w rest ih =>
    rw [unblock]
    split
    · exact holds
    · rename_i r found
      split
      · rename_i delegate refused
        exact stops holds same found refused
      · rename_i delegate slot granted
        exact ih rfl (handsOff holds same found granted)

/-- The outer slots on record. -/
def outer (s : State Ctx δ) (i : Nat) : Option (Slot Unit) :=
  s.requests[i]?.bind fun r => r.phase.outer?

/-- Guards, queue and calls agree. -/
structure Valid (s : State Ctx δ) : Prop where
  agrees : s.heap.Agrees s.outer
  nodup : s.queue.Nodup
  queued : ∀ i ∈ s.queue, ∃ r waiter, s.requests[i]? = some r ∧ r.phase.waiter? = some waiter ∧
    waiter.slot = none
  own : ∀ (i : Nat) r, s.requests[i]? = some r → r.phase.Own i

/-- The caller in front of the queue waits for a slot. -/
theorem Valid.front {w : Nat} {rest : List Nat} {r : Request Ctx} (valid : s.Valid)
    (queue : s.queue = w :: rest) (found : s.requests[w]? = some r) :
    ∃ waiter, r.phase.waiter? = some waiter ∧ waiter.slot = none := by
  obtain ⟨r', waiter, found', waits, empty⟩ := valid.queued w (by simp [queue])
  obtain rfl : r = r' := by simpa [found] using found'
  exact ⟨waiter, waits, empty⟩

theorem start_valid (delegate : δ) : (start delegate : State Ctx δ).Valid where
  agrees := by
    constructor
    · intro a b owned other ha
      contradiction
    · intro id slot
      constructor
      · rintro ⟨a, ha⟩
        contradiction
      · intro held
        simp [outer, start] at held
  nodup := List.nodup_nil
  queued := by simp [start]
  own := by simp [start]

theorem outer_modify {f : Request Ctx → Request Ctx} {i : Nat} {r : Request Ctx}
    (found : s.requests[i]? = some r) (requests : t.requests = s.requests.modify i f) (j : Nat) :
    t.outer j = if j = i then (f r).phase.outer? else s.outer j := by
  rw [outer, requests]
  split
  · rename_i here
    rw [here, Pool.getElem?_modify_self f found]
    rfl
  · rename_i other
    rw [Pool.getElem?_modify_other f other]
    rfl

theorem valid_advance {i : Nat} {input : Input} {r : Request Ctx} {shared : Shared δ} {next : Phase}
    {made : Option (Slot Unit)} {heap : Heap Unit} (valid : s.Valid)
    (found : s.requests[i]? = some r)
    (moved : Moves d discipline i r.context s.toShared input r.phase shared next made)
    (constructed : s.heap.construct input.addr i made = some heap) :
    Valid { s with toShared := shared, requests := s.requests.modify i (.moveTo next), heap } := by
  obtain ⟨free, guarded⟩ := moved.outer
  have self := Pool.getElem?_modify_self (Request.moveTo next) found
  have elsewhere {j : Nat} (other : j ≠ i) :=
    Pool.getElem?_modify_other (l := s.requests) (Request.moveTo next) other
  have outside (notWaiting : r.phase.waiter? = none) : i ∉ s.queue := by
    intro member
    obtain ⟨r', waiter, found', waits, _⟩ := valid.queued i member
    rw [found, Option.some.injEq] at found'
    rw [← found', notWaiting] at waits
    contradiction
  have others {j : Nat} (member : j ∈ s.queue) (other : j ≠ i) : ∃ r waiter,
      (s.requests.modify i (Request.moveTo next))[j]? = some r ∧ r.phase.waiter? = some waiter ∧
      waiter.slot = none := by
    rw [elsewhere other]
    exact valid.queued j member
  constructor
  · have atNext := outer_modify found (t := { s with
      toShared := shared, requests := s.requests.modify i (.moveTo next), heap }) rfl
    refine Heap.agrees_construct valid.agrees ?_ constructed ?_ ?_
    · rw [outer, found]
      exact free
    · intro j other
      rw [atNext, if_neg other]
    · rw [atNext, if_pos rfl]
      exact guarded
  · rcases moved.queue with ⟨_, _, same⟩ | ⟨parking, _, parked⟩ | ⟨_, _, _, same⟩ |
      ⟨_, _, _, _, _, same⟩ | ⟨_, _, _, _, withdrawn⟩
    · exact same ▸ valid.nodup
    · exact Discipline.nodup_park parked (outside (by rw [parking]; rfl)) valid.nodup
    · exact same ▸ valid.nodup
    · exact same ▸ valid.nodup
    · exact withdrawn ▸ Discipline.nodup_withdraw valid.nodup i
  · intro j member
    rcases moved.queue with ⟨notWaiting, _, same⟩ | ⟨parking, waiting, parked⟩ |
      ⟨waiter, waits, stays, same⟩ | ⟨waiter, inner, waits, delivered, _, same⟩ |
      ⟨waiter, waits, _, _, withdrawn⟩
    · rw [same] at member
      apply others member
      rintro rfl
      exact outside notWaiting member
    · rcases (Discipline.mem_park parked j).mp member with rfl | before
      · exact ⟨_, {}, self, by rw [waiting]; rfl, rfl⟩
      · apply others before
        rintro rfl
        exact outside (by rw [parking]; rfl) before
    · rw [same] at member
      by_cases here : j = i
      · subst here
        obtain ⟨r', waiter', found', waits', empty⟩ := valid.queued j member
        rw [found, Option.some.injEq] at found'
        rw [← found', waits, Option.some.injEq] at waits'
        exact ⟨_, waiter, self, stays, waits' ▸ empty⟩
      · exact others member here
    · rw [same] at member
      apply others member
      rintro rfl
      obtain ⟨r', waiter', found', waits', empty⟩ := valid.queued j member
      rw [found, Option.some.injEq] at found'
      rw [← found', waits, Option.some.injEq] at waits'
      rw [waits', empty] at delivered
      contradiction
    · rw [withdrawn] at member
      obtain ⟨before, other⟩ := (Discipline.mem_withdraw valid.nodup i j).mp member
      exact others before other
  · intro j r' found'
    rcases Pool.getElem?_modify_cases found found' with ⟨rfl, rfl⟩ | ⟨_, before⟩
    · exact moved.own (valid.own j r found)
    · exact valid.own j r' before

theorem valid_handOff {w : Nat} {rest : List Nat} {r : Request Ctx} {delegate : δ}
    {slot : Slot Unit} (valid : s.Valid) (queue : s.queue = w :: rest)
    (found : s.requests[w]? = some r) : (s.handOff w rest delegate slot).Valid := by
  have nodup := queue ▸ valid.nodup
  obtain ⟨absent, restNodup⟩ := List.nodup_cons.mp nodup
  refine ⟨?_, restNodup, ?_, ?_⟩
  · have same : (s.handOff w rest delegate slot).outer = s.outer := by
      funext j
      rw [outer_modify found rfl]
      split
      · rename_i here
        rw [here, outer, found]
        exact outer?_deliver r.phase _
      · rfl
    rw [same]
    exact valid.agrees
  · intro j member
    have other : j ≠ w := by
      rintro rfl
      exact absent member
    have before : j ∈ s.queue := queue ▸ List.mem_cons_of_mem w member
    obtain ⟨r', waiter, found', waits, empty⟩ := valid.queued j before
    exact ⟨r', waiter, by rw [handOff, Pool.getElem?_modify_other _ other, found'], waits, empty⟩
  · intro j r' found'
    rcases Pool.getElem?_modify_cases found found' with ⟨rfl, rfl⟩ | ⟨_, before⟩
    · exact own_deliver (valid.own j r found) _
    · exact valid.own j r' before

theorem valid_unblock {now : Nat → Int} (valid : s.Valid) :
    (unblock d now s.queue s).Valid := by
  refine unblock_invariant (P := Valid) ?_ ?_ rfl valid
  · intro s w rest r delegate slot now valid queue found _
    exact valid_handOff valid queue found
  · intro s w rest r delegate now valid _ _ _
    exact ⟨valid.agrees, valid.nodup, valid.queued, valid.own⟩

/-- `Unblock` gives a call nothing but a slot: what a phase does not get by a delivery, it
had before. -/
theorem unblock_origin {Q : Phase → Prop}
    (delivers : ∀ {phase} inner, Q (phase.deliver inner) → Q phase)
    {now : Nat → Int} {j : Nat} {r : Request Ctx}
    (found : (unblock d now s.queue s).requests[j]? = some r) (holds : Q r.phase) :
    ∃ r', s.requests[j]? = some r' ∧ Q r'.phase := by
  refine unblock_invariant (P := fun t => ∀ r, t.requests[j]? = some r → Q r.phase →
    ∃ r', s.requests[j]? = some r' ∧ Q r'.phase) ?_ ?_ rfl ?_ r found holds
  · intro u w rest r delegate slot now before queue foundW _ r' found' holds'
    rcases Pool.getElem?_modify_cases foundW found' with ⟨rfl, rfl⟩ | ⟨_, old⟩
    · exact before r foundW (delivers _ holds')
    · exact before r' old holds'
  · intro u w rest r delegate now before _ _ _
    exact before
  · intro r found holds
    exact ⟨r, found, holds⟩

/-- In a valid state, what a round keeps need only be shown for valid states. -/
theorem unblock_valid_invariant {P : State Ctx δ → Prop}
    (handsOff : ∀ {s w rest r delegate slot now}, s.Valid → P s → s.queue = w :: rest →
      s.requests[w]? = some r → d.tryAcquire s.delegate r.context now = (delegate, some slot) →
      P (s.handOff w rest delegate slot))
    (stops : ∀ {s : State Ctx δ} {r : Request Ctx} {delegate now}, P s →
      d.tryAcquire s.delegate r.context now = (delegate, none) → P { s with delegate })
    {now : Nat → Int} (valid : s.Valid) (holds : P s) : P (unblock d now s.queue s) := by
  refine (unblock_invariant (P := fun t => t.Valid ∧ P t) ?_ ?_ rfl ⟨valid, holds⟩).2
  · rintro s w rest r delegate slot now ⟨valid, holds⟩ queue found granted
    exact ⟨valid_handOff valid queue found, handsOff valid holds queue found granted⟩
  · rintro s w rest r delegate now ⟨valid, holds⟩ _ _ refused
    exact ⟨⟨valid.agrees, valid.nodup, valid.queued, valid.own⟩, stops holds refused⟩

/-- `Unblock` leaves every call that waits for nothing as it is. -/
theorem unblock_keeps {now : Nat → Int} {i : Nat} {r : Request Ctx} (valid : s.Valid)
    (found : s.requests[i]? = some r) (notWaiting : r.phase.waiter? = none) :
    (unblock d now s.queue s).requests[i]? = some r := by
  apply unblock_valid_invariant (P := fun t => t.requests[i]? = some r) ?_ ?_ valid found
  · intro s w rest r' delegate slot now valid kept queue found' _
    have other : i ≠ w := by
      rintro rfl
      obtain ⟨waiter, waits, _⟩ := valid.front queue kept
      rw [notWaiting] at waits
      contradiction
    rw [handOff, Pool.getElem?_modify_other _ other, kept]
  · intro s r' delegate now kept _
    exact kept

theorem valid_unblocked {i : Nat} {input : Input} {r : Request Ctx} {admission : Grant}
    {call : Completion Unit} (valid : s.Valid) (found : s.requests[i]? = some r)
    (atUnblock : r.phase = .unblocking admission call) :
    Valid { unblock d input.now s.queue s with
      requests := (unblock d input.now s.queue s).requests.modify i
        (.moveTo (.completed admission call)) } := by
  have after : (unblock d input.now s.queue s).Valid := valid_unblock valid
  have notWaiting : r.phase.waiter? = none := by
    rw [atUnblock]
    rfl
  have kept : (unblock d input.now s.queue s).requests[i]? = some r :=
    unblock_keeps valid found notWaiting
  refine ⟨?_, after.nodup, ?_, ?_⟩
  · have same : outer { unblock d input.now s.queue s with
        requests := (unblock d input.now s.queue s).requests.modify i
          (.moveTo (.completed admission call)) } = (unblock d input.now s.queue s).outer := by
      funext j
      rw [outer_modify kept rfl]
      split
      · rename_i here
        rw [here, outer, kept, Option.bind_some, atUnblock]
        rfl
      · rfl
    rw [same]
    exact after.agrees
  · intro j member
    obtain ⟨r', waiter, found', waits, empty⟩ := after.queued j member
    refine ⟨r', waiter, ?_, waits, empty⟩
    rw [Pool.getElem?_modify_other, found']
    rintro rfl
    rw [kept, Option.some.injEq] at found'
    rw [← found', notWaiting] at waits
    contradiction
  · intro j r' found'
    rcases Pool.getElem?_modify_cases kept found' with ⟨rfl, rfl⟩ | ⟨_, before⟩
    · have own := valid.own j r found
      rw [atUnblock] at own
      exact own
    · exact after.own j r' before

/-- A guard operation completes no outer guard, or that of a call that holds it. -/
theorem step_guard {op : GuardOp} (valid : s.Valid)
    (stepped : s.step d discipline (.guard op) = some t) :
    (∃ heap, t = { s with heap } ∧ heap.Agrees s.outer) ∨
      ∃ heap call r ticket admission, s.requests[call.id]? = some r ∧
        r.phase = .held ticket admission ∧ call.slot = outerSlot ticket ∧
        t = { s with
          heap, requests := s.requests.modify call.id (.moveTo (.extracting ticket admission call)) } ∧
        heap.Agrees t.outer := by
  simp only [step, Option.bind_eq_bind, Option.bind_eq_some_iff] at stepped
  obtain ⟨⟨heap, completion⟩, applied, stepped⟩ := stepped
  rcases Heap.agrees_apply valid.agrees applied with ⟨rfl, agrees⟩ | ⟨call, rfl, held, agrees⟩
  · cases stepped
    exact .inl ⟨heap, rfl, agrees⟩
  · cases stepped
    obtain ⟨r, found, slotted⟩ := Option.bind_eq_some_iff.mp held
    cases phase : r.phase <;> simp [phase, Phase.outer?] at slotted
    case held ticket admission =>
      have requests : (s.requests.modify call.id fun r => r.moveTo (r.phase.complete call)) =
          s.requests.modify call.id (.moveTo (.extracting ticket admission call)) := by
        apply List.ext_getElem?
        intro j
        by_cases here : j = call.id
        · rw [here, Pool.getElem?_modify_self _ found, Pool.getElem?_modify_self _ found, phase]
          rfl
        · rw [Pool.getElem?_modify_other _ here, Pool.getElem?_modify_other _ here]
      refine .inr ⟨heap, call, r, ticket, admission, found, phase, slotted.symm, ?_, ?_⟩
      · rw [requests]
      · apply agrees _
        · intro other different
          rw [outer_modify found rfl, if_neg different]
        · rw [outer_modify found rfl, if_pos rfl, phase]
          rfl

theorem valid_completes {heap : Heap Unit} {call : Completion Unit} {r : Request Ctx}
    {ticket : Nat} {admission : Grant} (valid : s.Valid) (found : s.requests[call.id]? = some r)
    (atHeld : r.phase = .held ticket admission) (slot : call.slot = outerSlot ticket)
    (agrees : heap.Agrees (outer { s with
      heap, requests := s.requests.modify call.id (.moveTo (.extracting ticket admission call)) })) :
    Valid { s with
      heap, requests := s.requests.modify call.id (.moveTo (.extracting ticket admission call)) } := by
  refine ⟨agrees, valid.nodup, ?_, ?_⟩
  · intro j member
    obtain ⟨r', waiter, found', waits, empty⟩ := valid.queued j member
    refine ⟨r', waiter, ?_, waits, empty⟩
    rw [Pool.getElem?_modify_other, found']
    rintro rfl
    rw [found, Option.some.injEq] at found'
    rw [← found', atHeld] at waits
    contradiction
  · intro j r' found'
    rcases Pool.getElem?_modify_cases found found' with ⟨rfl, rfl⟩ | ⟨_, before⟩
    · exact ⟨rfl, slot⟩
    · exact valid.own j r' before

theorem valid_step (valid : s.Valid) (stepped : s.step d discipline e = some t) : t.Valid := by
  cases e with
  | tryAcquire context =>
    cases stepped
    refine ⟨?_, valid.nodup, ?_, ?_⟩
    · have same : outer { s with requests := s.requests ++ [⟨context, .trying⟩] } = s.outer := by
        funext j
        rw [outer, outer]
        rcases Nat.lt_trichotomy j s.requests.length with before | rfl | after
        · rw [List.getElem?_append_left before]
        · simp [Phase.outer?]
        · rw [List.getElem?_eq_none (Nat.le_of_lt after), List.getElem?_eq_none]
          simpa using after
      rw [same]
      exact valid.agrees
    · intro j member
      obtain ⟨r, waiter, found, waits, empty⟩ := valid.queued j member
      exact ⟨r, waiter, Pool.getElem?_concat_eq_some.mpr (.inl found), waits, empty⟩
    · intro j r found
      rcases Pool.getElem?_concat_eq_some.mp found with before | ⟨_, rfl⟩
      · exact valid.own j r before
      · trivial
  | advance i input =>
    obtain ⟨r, found, ⟨admission, call, atUnblock, rfl⟩ |
      ⟨shared, next, made, heap, moved, constructed, rfl⟩⟩ := step_advance stepped
    · exact valid_unblocked valid found atUnblock
    · exact valid_advance valid found moved constructed
  | guard op =>
    rcases step_guard valid stepped with
      ⟨heap, rfl, agrees⟩ | ⟨heap, call, r, ticket, admission, found, atHeld, slot, rfl, agrees⟩
    · exact ⟨agrees, valid.nodup, valid.queued, valid.own⟩
    · exact valid_completes valid found atHeld slot agrees
  | setLimit value =>
    cases stepped
    exact ⟨valid.agrees, valid.nodup, valid.queued, valid.own⟩

/-- What the steps of a call, a delivery and the end of a completion keep of a phase, every
step keeps of every call. -/
theorem phase_step {Q : Phase → Prop} {i : Nat} {r : Request Ctx}
    (moves : ∀ {j context shared input phase shared' next made},
      Moves d discipline j context shared input phase shared' next made → Q phase → Q next)
    (delivers : ∀ {phase} (inner : Grant), Q phase → Q (phase.deliver inner))
    (completes : ∀ {ticket admission} (call : Completion Unit), Q (.held ticket admission) →
      Q (.extracting ticket admission call))
    (ends : ∀ {admission call}, Q (.unblocking admission call) → Q (.completed admission call))
    (valid : s.Valid) (found : s.requests[i]? = some r) (holds : Q r.phase)
    (stepped : s.step d discipline e = some t) :
    ∃ r', t.requests[i]? = some r' ∧ Q r'.phase := by
  cases e with
  | tryAcquire context =>
    cases stepped
    exact ⟨r, Pool.getElem?_concat_eq_some.mpr (.inl found), holds⟩
  | setLimit value =>
    cases stepped
    exact ⟨r, found, holds⟩
  | guard op =>
    rcases step_guard valid stepped with
      ⟨heap, rfl, _⟩ | ⟨heap, call, r', ticket, admission, found', atHeld, _, rfl, _⟩
    · exact ⟨r, found, holds⟩
    · refine Pool.modify_keeps (P := fun r => Q r.phase) found' found holds fun holds => ?_
      rw [atHeld] at holds
      exact completes call holds
  | advance j input =>
    obtain ⟨r', found', ⟨admission, call, atUnblock, rfl⟩ |
      ⟨shared, next, made, heap, moved, _, rfl⟩⟩ := step_advance stepped
    · by_cases here : i = j
      · subst here
        obtain rfl : r = r' := by simpa [found] using found'
        have kept : (unblock d input.now s.queue s).requests[i]? = some r :=
          unblock_keeps valid found (by rw [atUnblock]; rfl)
        rw [atUnblock] at holds
        exact ⟨_, Pool.getElem?_modify_self _ kept, ends holds⟩
      · obtain ⟨u, found'', still⟩ : ∃ r', (unblock d input.now s.queue s).requests[i]? = some r' ∧
            Q r'.phase := by
          refine unblock_invariant (P := fun t => ∃ r', t.requests[i]? = some r' ∧ Q r'.phase)
            ?_ ?_ rfl ⟨r, found, holds⟩
          · rintro s w rest _ delegate slot now ⟨r', found', holds⟩ _ _ _
            by_cases handed : i = w
            · subst handed
              exact ⟨_, Pool.getElem?_modify_self _ found', delivers _ holds⟩
            · exact ⟨r', (Pool.getElem?_modify_other _ handed).trans found', holds⟩
          · rintro s w rest _ delegate now there _ _ _
            exact there
        exact ⟨u, (Pool.getElem?_modify_other _ here).trans found'', still⟩
    · exact Pool.modify_keeps (f := Request.moveTo next) (P := fun r => Q r.phase) found' found holds
        (moves moved)

theorem valid_invariant {P : State Ctx δ → Prop}
    (preserves : ∀ {s e t}, s.Valid → P s → s.step d discipline e = some t → P t)
    {es : List (Event Ctx)} (valid : s.Valid) (ran : run (step d discipline) s es = some t)
    (initial : P s) : P t := by
  apply (invariant (P := fun s => s.Valid ∧ P s) ?_ ran ⟨valid, initial⟩).2
  rintro s e t ⟨valid, holds⟩ stepped
  exact ⟨valid_step valid stepped, preserves valid holds stepped⟩

theorem run_valid {delegate : δ} {es : List (Event Ctx)}
    (ran : run (step d discipline) (start delegate) es = some s) : s.Valid :=
  invariant valid_step ran (start_valid delegate)
end State
end Limen.BlockingLimiter
