import Limen.BlockingLimiter.Registration

/-! The ids of outer slots when `next_slot_id_` comes round. Its `2 ^ 32` values are taken in
turn, whether the call that took a value before has given it up or not. -/
namespace Limen.BlockingLimiter
open Transition
open AbstractLimiter (Counters)
variable {Ctx δ : Type} {d : Delegate Ctx δ} {discipline : Discipline}

/-- The id that is taken is no key, `emplace` inserts, and a completion finds the inner slot
of its own admission. -/
def Phase.Unshared (s : Shared δ) : Phase → Prop
  | .numbering _ => s.activeSlots (slotId s.nextSlotId) = none
  | .registering ticket _ => s.activeSlots (slotId ticket) = none
  | .extracting _ admission call => s.activeSlots call.slot.partitionIndex = some admission
  | _ => True

theorem Moves.registering {i : Nat} {context : Ctx} {s s' : Shared δ} {input : Input}
    {phase next : Phase} {made : Option (Slot Unit)} {ticket : Nat} {admission : Grant}
    (moved : Moves d discipline i context s input phase s' next made)
    (entry : next.registered? = some (ticket, admission)) :
    phase = .registering ticket admission := by
  cases moved with
  | registered | collided =>
    cases entry
    rfl
  | _ => contradiction

namespace State
variable {s t : State Ctx δ} {e : Event Ctx}

/-- A call with an entry took its id a multiple of `2 ^ 32` ids before or after `ticket`. -/
def Repeats (s : State Ctx δ) (ticket : Nat) : Prop :=
  ∃ r ∈ s.requests, (r.phase.registered?.map fun entry => entry.1 % 2 ^ 32) = some (ticket % 2 ^ 32)

instance (s : State Ctx δ) (ticket : Nat) : Decidable (s.Repeats ticket) :=
  inferInstanceAs (Decidable (∃ r ∈ s.requests, _))

end State

def Phase.Unwrapped (s : State Ctx δ) : Phase → Prop
  | .numbering _ => ¬ s.Repeats s.nextSlotId
  | .registering ticket _ => ¬ s.Repeats ticket
  | _ => True

namespace State
variable {s t : State Ctx δ} {e : Event Ctx}

def Unshared (s : State Ctx δ) : Event Ctx → Prop
  | .advance i _ => ∀ r ∈ s.requests[i]?, r.phase.Unshared s.toShared
  | .tryAcquire _ | .guard _ | .setLimit _ => True

def Unwrapped (s : State Ctx δ) : Event Ctx → Prop
  | .advance i _ => ∀ r ∈ s.requests[i]?, r.phase.Unwrapped s
  | .tryAcquire _ | .guard _ | .setLimit _ => True

theorem repeats_iff {ticket : Nat} : s.Repeats ticket ↔
    ∃ (j : Nat) (r : Request Ctx) (ticket' : Nat) (admission : Grant), s.requests[j]? = some r ∧
      r.phase.registered? = some (ticket', admission) ∧ slotId ticket' = slotId ticket := by
  simp only [Repeats, Option.map_eq_some_iff, Prod.exists, List.mem_iff_getElem?, slotId_eq_iff]
  constructor
  · rintro ⟨r, ⟨j, found⟩, ticket', admission, entry, same⟩
    exact ⟨j, r, ticket', admission, found, entry, same⟩
  · rintro ⟨j, r, ticket', admission, found, entry, same⟩
    exact ⟨r, ⟨j, found⟩, ticket', admission, entry, same⟩

theorem apart_of_not_repeats {ticket : Nat} (fresh : ¬ s.Repeats ticket) (i : Nat) :
    s.Apart i ticket := by
  intro j r ticket' admission found _ entry same
  exact fresh (repeats_iff.mpr ⟨j, r, ticket', admission, found, entry, same⟩)

/-- Entries are those of calls that hold an outer guard or have one to extract. -/
theorem key_free_iff (registered : s.Registered) (ticket : Nat) :
    s.activeSlots (slotId ticket) = none ↔ ¬ s.Repeats ticket := by
  rw [repeats_iff]
  constructor
  · rintro free ⟨j, r, ticket', admission, found, entry, same⟩
    have kept := registered.kept j r found
    cases phase : r.phase <;>
      simp only [phase, Phase.registered?, Option.some.injEq, Prod.mk.injEq, reduceCtorEq] at entry
    all_goals
      obtain ⟨rfl, rfl⟩ := entry
      rw [phase] at kept
      rw [← same, kept.2] at free
      contradiction
  · intro fresh
    by_contra present
    obtain ⟨inner, there⟩ := Option.ne_none_iff_exists'.mp present
    obtain ⟨j, r, ticket', found, entry, same⟩ := registered.keyed _ _ there
    exact fresh ⟨j, r, ticket', inner, found, entry, same.symm⟩

/-- Calls with an entry have it under different ids. -/
structure Intact (s : State Ctx δ) : Prop where
  valid : s.Valid
  registered : s.Registered
  separate : ∀ (i : Nat) r ticket admission, s.requests[i]? = some r →
    r.phase.registered? = some (ticket, admission) → s.Apart i ticket

theorem start_intact (delegate : δ) : (start delegate : State Ctx δ).Intact where
  valid := start_valid delegate
  registered := start_registered delegate
  separate := by simp [start]

/-- Where every entry was there before, under its call's id, ids stay apart. -/
theorem separate_of_origin
    (separate : ∀ (i : Nat) r ticket admission, s.requests[i]? = some r →
      r.phase.registered? = some (ticket, admission) → s.Apart i ticket)
    (origin : ∀ {j : Nat} {r : Request Ctx} {entry : Nat × Grant}, t.requests[j]? = some r →
      r.phase.registered? = some entry →
      ∃ r', s.requests[j]? = some r' ∧ r'.phase.registered? = some entry)
    (i : Nat) (r : Request Ctx) (ticket : Nat) (admission : Grant) (found : t.requests[i]? = some r)
    (entry : r.phase.registered? = some (ticket, admission)) : t.Apart i ticket := by
  intro j r' ticket' admission' found' other entry'
  obtain ⟨u, before, there⟩ := origin found entry
  obtain ⟨u', before', there'⟩ := origin found' entry'
  exact separate i u ticket admission before there j u' ticket' admission' before' other there'

theorem separate_advance {i : Nat} {input : Input} {r : Request Ctx} {shared : Shared δ}
    {next : Phase} {made : Option (Slot Unit)} {heap : Heap Unit} (intact : s.Intact)
    (found : s.requests[i]? = some r)
    (fresh : ∀ ticket admission, r.phase = .registering ticket admission → ¬ s.Repeats ticket)
    (moved : Moves d discipline i r.context s.toShared input r.phase shared next made)
    (j : Nat) (r' : Request Ctx) (ticket : Nat) (admission : Grant)
    (found' : (s.requests.modify i (.moveTo next))[j]? = some r')
    (entry : r'.phase.registered? = some (ticket, admission)) :
    Apart { s with toShared := shared, requests := s.requests.modify i (.moveTo next), heap }
      j ticket := by
  intro k r'' ticket' admission' found'' other entry' same
  rcases Pool.getElem?_modify_cases found found' with ⟨rfl, rfl⟩ | ⟨_, before⟩ <;>
    rcases Pool.getElem?_modify_cases found found'' with ⟨rfl, rfl⟩ | ⟨_, before'⟩
  · exact other rfl
  · have here : r.phase = .registering ticket admission := moved.registering entry
    exact fresh ticket admission here
      (repeats_iff.mpr ⟨k, r'', ticket', admission', before', entry', same⟩)
  · have here : r.phase = .registering ticket' admission' := moved.registering entry'
    exact fresh ticket' admission' here
      (repeats_iff.mpr ⟨j, r', ticket, admission, before, entry, same.symm⟩)
  · exact intact.separate j r' ticket admission before entry k r'' ticket' admission' before' other
      entry' same

/-- A step that takes no id twice at a time leaves everybody's entry in place. -/
theorem intact_step (intact : s.Intact) (unwrapped : s.Unwrapped e)
    (stepped : s.step d discipline e = some t) : t.Intact := by
  have valid := valid_step intact.valid stepped
  refine ⟨valid, ?_, ?_⟩
  · refine registered_step intact.valid intact.registered ?_ stepped
    rintro i input r ticket rfl found taken
    cases phase : r.phase with
    | registering ticket' inner =>
      obtain rfl : ticket' = ticket := by simpa [phase, Phase.ticket?] using taken
      have fresh := unwrapped r found
      rw [phase] at fresh
      exact apart_of_not_repeats fresh i
    | held ticket' admission | extracting ticket' admission call =>
      obtain rfl : ticket' = ticket := by simpa [phase, Phase.ticket?] using taken
      exact intact.separate i r ticket' admission found (by rw [phase]; rfl)
    | _ => simp [phase, Phase.ticket?] at taken
  · cases e with
    | tryAcquire context =>
      cases stepped
      refine separate_of_origin intact.separate ?_
      intro j r entry found registered
      rcases Pool.getElem?_concat_eq_some.mp found with before | ⟨_, rfl⟩
      · exact ⟨r, before, registered⟩
      · contradiction
    | setLimit value =>
      cases stepped
      exact intact.separate
    | guard op =>
      rcases step_guard intact.valid stepped with
        ⟨heap, rfl, _⟩ | ⟨heap, call, r, ticket, admission, found, atHeld, _, rfl, _⟩
      · exact intact.separate
      · refine separate_of_origin intact.separate ?_
        intro j r' entry found' registered
        rcases Pool.getElem?_modify_cases found found' with ⟨rfl, rfl⟩ | ⟨_, before⟩
        · exact ⟨r, found, by rw [atHeld]; exact registered⟩
        · exact ⟨r', before, registered⟩
    | advance i input =>
      obtain ⟨r, found, ⟨admission, call, atUnblock, rfl⟩ |
        ⟨shared, next, made, heap, moved, _, rfl⟩⟩ := step_advance stepped
      · refine separate_of_origin intact.separate ?_
        intro j r' entry found' registered
        have kept : (unblock d input.now s.queue s).requests[i]? = some r :=
          unblock_keeps intact.valid found (by rw [atUnblock]; rfl)
        rcases Pool.getElem?_modify_cases kept found' with ⟨rfl, rfl⟩ | ⟨_, before⟩
        · contradiction
        · refine unblock_origin (Q := fun phase => phase.registered? = some entry) ?_ before
            registered
          intro phase inner registered
          cases phase <;> exact registered
      · refine separate_advance intact found ?_ moved
        intro ticket admission here
        have fresh := unwrapped r found
        rwa [here] at fresh

/-- In an intact state a step shares an id exactly when the id it takes or registers has
come round to a call that has an entry. -/
theorem unshared_iff (intact : s.Intact) : s.Unshared e ↔ s.Unwrapped e := by
  cases e with
  | tryAcquire | guard | setLimit => exact Iff.rfl
  | advance i input =>
    simp only [Unshared, Unwrapped, Option.mem_def]
    refine forall_congr' fun r => forall_congr' fun found => ?_
    have own := intact.valid.own i r found
    have kept := intact.registered.kept i r found
    cases phase : r.phase with
    | numbering inner => exact key_free_iff intact.registered s.nextSlotId
    | registering ticket inner => exact key_free_iff intact.registered ticket
    | extracting ticket admission call =>
      rw [phase] at own kept
      have id : call.slot.partitionIndex = slotId ticket := by rw [own.2, outerSlot]
      simp only [Phase.Unshared, Phase.Unwrapped, id, kept.2]
    | _ => exact Iff.rfl

/-- Along every run, ids are not shared if and only if none is taken or registered that has
come round to a call with an entry. -/
theorem ids_unshared_iff (d : Delegate Ctx δ) (discipline : Discipline) (delegate : δ)
    (es : List (Event Ctx)) : Along (step d discipline) Unshared (start delegate) es ↔
      Along (step d discipline) Unwrapped (start delegate) es := by
  refine along_congr (P := Intact) ?_ ?_ (start_intact delegate) es
  · intro s e intact
    exact unshared_iff intact
  · intro s e t intact unwrapped stepped
    exact intact_step intact unwrapped stepped

theorem nextSlotId_run {es : List (Event Ctx)} (valid : s.Valid)
    (ran : run (step d discipline) s es = some t) : s.nextSlotId ≤ t.nextSlotId := by
  refine (invariant (P := fun u : State Ctx δ => u.Valid ∧ s.nextSlotId ≤ u.nextSlotId) ?_ ran
    ⟨valid, Nat.le_refl _⟩).2
  rintro u e v ⟨valid, later⟩ stepped
  exact ⟨valid_step valid stepped, later.trans (nextSlotId_step valid stepped)⟩

/-- While no more than `2 ^ 32` ids are taken, no step takes or registers one that has come
round. -/
theorem unwrapped_of_few (registered : s.Registered) (stepped : s.step d discipline e = some t)
    (few : s.nextSlotId ≤ 2 ^ 32) (room : t.nextSlotId ≤ 2 ^ 32) : s.Unwrapped e := by
  cases e with
  | tryAcquire | guard | setLimit => trivial
  | advance i input =>
    intro r found
    cases phase : r.phase with
    | numbering inner =>
      have below : s.nextSlotId < 2 ^ 32 := by
        obtain ⟨r', found', ⟨_, _, atUnblock, _⟩ | ⟨shared, next, made, heap, moved, _, rfl⟩⟩ :=
          step_advance stepped
        · obtain rfl : r = r' := Option.some.inj (found.symm.trans found')
          rw [phase] at atUnblock
          contradiction
        · obtain rfl : r = r' := Option.some.inj (found.symm.trans found')
          rw [phase] at moved
          cases moved
          exact room
      intro repeated
      obtain ⟨j, r', ticket, admission, found', entry, same⟩ := repeats_iff.mp repeated
      have earlier := (registered.kept j r' found').ticket_lt (Phase.ticket_of_entry entry)
      exact earlier.ne (slotId_injective (by omega) below same)
    | registering ticket inner =>
      refine (key_free_iff registered ticket).mp ?_
      exact key_free registered found (fun _ taken => apart_of_few registered few found taken)
        ticket inner phase
    | _ => trivial

/-- In a run that takes `2 ^ 32` ids or fewer, no id is shared. -/
theorem ids_unshared_of_few {delegate : δ} {es : List (Event Ctx)}
    (ran : run (step d discipline) (start delegate) es = some s) (few : s.nextSlotId ≤ 2 ^ 32) :
    Along (step d discipline) Unshared (start delegate) es := by
  rw [along_iff]
  rintro before e after u rfl toU
  obtain ⟨u', toU', onward⟩ := run_append_eq_some.mp ran
  obtain rfl : u = u' := Option.some.inj (toU.symm.trans toU')
  obtain ⟨v, stepped, rest⟩ := run_cons_eq_some.mp onward
  have valid : u.Valid := run_valid toU
  have room : v.nextSlotId ≤ 2 ^ 32 := (nextSlotId_run (valid_step valid stepped) rest).trans few
  have below : u.nextSlotId ≤ 2 ^ 32 := (nextSlotId_step valid stepped).trans room
  have registered := run_registered toU below
  have separate (i : Nat) (r : Request Ctx) (ticket : Nat) (admission : Grant)
      (found : u.requests[i]? = some r)
      (entry : r.phase.registered? = some (ticket, admission)) : u.Apart i ticket :=
    apart_of_few registered below found (Phase.ticket_of_entry entry)
  exact (unshared_iff ⟨valid, registered, separate⟩).mpr
    (unwrapped_of_few registered stepped below room)

section Alone
variable {shared shared' : Shared δ} {calls : List (Request Ctx)} {heap heap' : Heap Unit}
  {context : Ctx} {phase next : Phase} {input : Input} {made : Option (Slot Unit)}

/-- A step of the youngest call. -/
theorem advance_last (advanced : phase.advance d discipline calls.length context shared input =
      some (shared', next, made))
    (constructed : heap.construct input.addr calls.length made = some heap') :
    step d discipline ⟨shared, calls ++ [⟨context, phase⟩], heap⟩ (.advance calls.length input) =
      some ⟨shared', calls ++ [⟨context, next⟩], heap'⟩ := by
  have found : (calls ++ [⟨context, phase⟩])[calls.length]? = some ⟨context, phase⟩ := by simp
  simp only [step, found, Option.bind_eq_bind, Option.bind_some]
  split
  · contradiction
  · rename_i other
    simp only [advanced, constructed, Option.bind_some, Pool.modify_concat, Request.moveTo]

/-- A call that the delegate admits, up to the outer guard it returns. -/
def enters (context : Ctx) (i addr : Nat) : List (Event Ctx) :=
  [.tryAcquire context, .advance i {}, .advance i {}, .advance i { addr }]

def entered (s : State Ctx δ) (context : Ctx) (addr : Nat) (delegate : δ) (slot : Slot Unit) :
    State Ctx δ where
  delegate := delegate
  nextSlotId := s.nextSlotId + 1
  activeSlots := Function.update s.activeSlots (slotId s.nextSlotId) (some ⟨s.granted, slot⟩)
  queue := s.queue
  granted := s.granted + 1
  completions := s.completions
  requests := s.requests ++ [⟨context, .held s.nextSlotId ⟨s.granted, slot⟩⟩]
  heap := Function.update s.heap addr
    (some (.makeSlot s.requests.length (outerSlot s.nextSlotId)))

theorem run_enters {delegate : δ} {slot : Slot Unit} {addr : Nat}
    (tried : d.tryAcquire s.delegate context 0 = (delegate, some slot))
    (free : s.activeSlots (slotId s.nextSlotId) = none) (room : s.heap addr = none) :
    run (step d discipline) s (enters context s.requests.length addr) =
      some (s.entered context addr delegate slot) := by
  let inner : Grant := ⟨s.granted, slot⟩
  let granted : Shared δ := { s.toShared with delegate, granted := s.granted + 1 }
  let numbered : Shared δ := { granted with nextSlotId := s.nextSlotId + 1 }
  have admits : Phase.trying.advance d discipline s.requests.length context s.toShared {} =
      some (granted, .numbering inner, none) := by
    simp only [Phase.advance, tried, granted, inner]
  have numbers : (Phase.numbering inner).advance d discipline s.requests.length context granted {} =
      some (numbered, .registering s.nextSlotId inner, none) := rfl
  have registers : (Phase.registering s.nextSlotId inner).advance d discipline s.requests.length
      context numbered { addr } = some ((s.entered context addr delegate slot).toShared,
        .held s.nextSlotId inner, some (outerSlot s.nextSlotId)) := by
    simp only [Phase.advance, numbered, granted, free, inner, entered]
  have made : s.heap.construct addr s.requests.length (some (outerSlot s.nextSlotId)) =
      some (s.entered context addr delegate slot).heap := by
    simp only [Heap.construct, Heap.make, room, entered]
  refine run_cons_eq_some.mpr ⟨⟨s.toShared, s.requests ++ [⟨context, .trying⟩], s.heap⟩, rfl, ?_⟩
  refine run_cons_eq_some.mpr ⟨_, advance_last admits rfl, ?_⟩
  refine run_cons_eq_some.mpr ⟨_, advance_last numbers rfl, ?_⟩
  exact run_cons_eq_some.mpr ⟨_, advance_last registers made, rfl⟩

/-- The completion of the guard that the youngest call has returned, while nobody is parked,
and its destruction. -/
def leaves (i addr : Nat) : List (Event Ctx) :=
  [.guard (.complete addr .success), .advance i {}, .advance i {}, .advance i {},
    .guard (.destroy addr)]

theorem run_leaves {ticket addr : Nat} {inner : Grant} (empty : shared.queue = [])
    (entry : shared.activeSlots (slotId ticket) = some inner)
    (there : heap addr = some (.makeSlot calls.length (outerSlot ticket))) :
    run (step d discipline) ⟨shared, calls ++ [⟨context, .held ticket inner⟩], heap⟩
        (leaves calls.length addr) =
      some ⟨Shared.complete d
          { shared with activeSlots := Function.update shared.activeSlots (slotId ticket) none }
          inner .success 0,
        calls ++ [⟨context, .completed inner ⟨calls.length, outerSlot ticket, .success⟩⟩],
        Function.update heap addr none⟩ := by
  let call : Completion Unit := ⟨calls.length, outerSlot ticket, .success⟩
  have key : call.slot.partitionIndex = slotId ticket := by simp only [call, outerSlot]
  let spent : SlotGuard Unit := { SlotGuard.makeSlot calls.length (outerSlot ticket) with
    completed := true }
  let taken : Shared δ :=
    { shared with activeSlots := Function.update shared.activeSlots (slotId ticket) none }
  have extracts : (Phase.extracting ticket inner call).advance d discipline calls.length context
      shared {} = some (taken, .mirroring (some inner) inner call, none) := by
    simp only [Phase.advance, key, entry, taken]
  have mirrors : (Phase.mirroring (some inner) inner call).advance d discipline calls.length
      context taken {} = some (taken.complete d inner .success 0, .unblocking inner call, none) := rfl
  refine run_cons_eq_some.mpr ⟨⟨shared, calls ++ [⟨context, .extracting ticket inner call⟩],
    Function.update heap addr (some spent)⟩, ?_, ?_⟩
  · simp only [step, Heap.apply, there, Option.map_some, Option.bind_eq_bind, Option.bind_some]
    simp [SlotGuard.complete, SlotGuard.notify, SlotGuard.makeSlot, Pool.modify_concat,
      Request.moveTo, Phase.complete, call, spent, outerSlot]
  refine run_cons_eq_some.mpr ⟨_, advance_last extracts rfl, ?_⟩
  refine run_cons_eq_some.mpr ⟨_, advance_last mirrors rfl, ?_⟩
  refine run_cons_eq_some.mpr ⟨⟨taken.complete d inner .success 0,
    calls ++ [⟨context, .completed inner call⟩], Function.update heap addr (some spent)⟩, ?_, ?_⟩
  · have found : (calls ++ [⟨context, .unblocking inner call⟩])[calls.length]? =
      some ⟨context, .unblocking inner call⟩ := by simp
    have nobody : (taken.complete d inner .success 0).queue = [] := empty
    simp only [step, found, Option.bind_eq_bind, Option.bind_some, nobody, unblock,
      Pool.modify_concat, Request.moveTo]
  refine run_cons_eq_some.mpr ⟨_, ?_, rfl⟩
  simp only [step, Heap.apply, Function.update_self, Option.map_some, Option.bind_eq_bind,
    Option.bind_some, Function.update_idem]
  rfl
end Alone

section ComesRound
variable {n : Nat} {s : State Unit (Counters Unit)}

/-- The first call keeps its guard while `n` others come and go. -/
def othersPass : Nat → List (Event Unit)
  | 0 => enters () 0 0
  | n + 1 => othersPass n ++ (enters () (n + 1) 1 ++ leaves (n + 1) 1)

structure Passed (n : Nat) (s : State Unit (Counters Unit)) : Prop where
  calls : s.requests.length = n + 1
  ids : s.nextSlotId = n + 1
  limit : s.delegate.limit = 2
  inflight : s.delegate.inflight = 1
  queue : s.queue = []
  taken : (s.activeSlots (slotId 0)).isSome
  free : ∀ key ≠ slotId 0, s.activeSlots key = none
  room : s.heap 1 = none

theorem passed_grants (passed : Passed n s) : ∃ delegate slot,
    (simpleDelegate fun _ => false).tryAcquire s.delegate () 0 = (delegate, some slot) ∧
      delegate.limit = 2 ∧ delegate.inflight = 2 ∧ slot.bypassed = false := by
  have below : ¬ s.delegate.inflight ≥ s.delegate.limit := by
    rw [passed.inflight, passed.limit]
    decide
  refine ⟨{ s.delegate with inflight := s.delegate.inflight + 1 }, _, if_neg below, passed.limit,
    ?_, rfl⟩
  rw [passed.inflight]
  rfl

theorem passed_next (passed : Passed n s) (few : n + 1 < 2 ^ 32) : ∃ t,
    run (step (simpleDelegate fun _ => false) discipline) s
      (enters () (n + 1) 1 ++ leaves (n + 1) 1) = some t ∧ Passed (n + 1) t := by
  obtain ⟨delegate, slot, tried, limit, inflight, counted⟩ := passed_grants passed
  have other : slotId s.nextSlotId ≠ slotId 0 := by
    rw [Ne, slotId_eq_iff, passed.ids]
    omega
  have comes : run (step (simpleDelegate fun _ => false) discipline) s
      (enters () s.requests.length 1) = some (s.entered () 1 delegate slot) :=
    run_enters tried (passed.free _ other) passed.room
  have entry : (s.entered () 1 delegate slot).activeSlots (slotId s.nextSlotId) =
      some ⟨s.granted, slot⟩ := by simp only [entered, Function.update_self]
  have there : (s.entered () 1 delegate slot).heap 1 =
      some (.makeSlot s.requests.length (outerSlot s.nextSlotId)) := by
    simp only [entered, Function.update_self]
  have goes : run (step (simpleDelegate fun _ => false) discipline) (s.entered () 1 delegate slot)
      (leaves s.requests.length 1) = some _ := run_leaves passed.queue entry there
  rw [passed.calls] at comes goes
  refine ⟨_, run_append_eq_some.mpr ⟨_, comes, goes⟩, ?_⟩
  constructor
  · simp [passed.calls]
  · exact congrArg (· + 1) passed.ids
  · exact (complete_limit ..).trans limit
  · refine (complete_inflight ..).trans ?_
    simp [counted, inflight]
  · exact passed.queue
  · simpa [Shared.complete, entered, Function.update_of_ne (Ne.symm other)] using passed.taken
  · intro key different
    simp only [Shared.complete, Function.update_apply]
    split
    · rfl
    · exact passed.free key different
  · simp

theorem run_othersPass (discipline : Discipline) (few : n < 2 ^ 32) : ∃ s,
    run (step (simpleDelegate fun _ => false) discipline) (initial Unit 2) (othersPass n) = some s ∧
      Passed n s := by
  induction n with
  | zero =>
    have comes : run (step (simpleDelegate fun _ => false) discipline) (initial Unit 2)
        (enters () 0 0) = some _ := run_enters rfl rfl rfl
    refine ⟨_, comes, ?_⟩
    constructor
    case taken => simp [entered, initial, start]
    case free =>
      intro key different
      simp [entered, initial, start, different]
    all_goals rfl
  | succ n ih =>
    obtain ⟨s, ran, passed⟩ := ih (by omega)
    obtain ⟨t, onward, next⟩ := passed_next passed few
    exact ⟨t, run_append_eq_some.mpr ⟨s, ran, onward⟩, next⟩

/-- One more call takes an id. -/
def comesRound (n : Nat) : List (Event Unit) :=
  othersPass n ++ [.tryAcquire (), .advance (n + 1) {}, .advance (n + 1) {}]

/-- After `2 ^ 32` ids the next one is that of the first call, which is still a key. -/
theorem comesRound_shared (discipline : Discipline) (whole : n + 1 = 2 ^ 32) :
    ¬ Along (step (simpleDelegate fun _ => false) discipline) Unshared (initial Unit 2)
      (comesRound n) := by
  intro unshared
  obtain ⟨s, ran, passed⟩ := run_othersPass discipline (n := n) (by omega)
  obtain ⟨delegate, slot, tried, _⟩ := passed_grants passed
  have last := (unshared.right ran).2 _ rfl
  rw [← passed.calls] at last
  have admits : Phase.trying.advance (simpleDelegate fun _ => false) discipline s.requests.length ()
      s.toShared {} = some ({ s.toShared with delegate, granted := s.granted + 1 },
        .numbering ⟨s.granted, slot⟩, none) := by
    simp only [Phase.advance, tried]
  have free := (last.2 _ (advance_last admits rfl)).1 ⟨(), .numbering ⟨s.granted, slot⟩⟩ (by simp)
  have absent : s.activeSlots (slotId s.nextSlotId) = none := free
  have same : slotId s.nextSlotId = slotId 0 := by
    rw [slotId_eq_iff, passed.ids, whole, Nat.mod_self, Nat.zero_mod]
  have taken := passed.taken
  rw [← same, absent] at taken
  exact Bool.false_ne_true taken

theorem comesRound_reused :
    (¬ Along (step (simpleDelegate fun _ => false) .fifo) Unshared (initial Unit 2)
      (comesRound 4294967295)) ∧
    ¬ Along (step (simpleDelegate fun _ => false) (.lifo 1)) Unshared (initial Unit 2)
      (comesRound 4294967295) :=
  ⟨comesRound_shared .fifo (by decide), comesRound_shared (.lifo 1) (by decide)⟩
end ComesRound
end State
end Limen.BlockingLimiter
