import Limen.BlockingLimiter.Ownership

/-! Which outer guard an inner slot belongs to. As long as the 32-bit ids do not come round,
the entry under an id is the inner slot of the call that took the id, and its completion
is that of this call's outer guard. -/
namespace Limen.BlockingLimiter
open Transition
variable {Ctx δ : Type} {d : Delegate Ctx δ} {discipline : Discipline}

theorem slotId_eq_iff {a b : Nat} : slotId a = slotId b ↔ a % 2 ^ 32 = b % 2 ^ 32 := by
  simp only [slotId, wrap, Int.bmod_def]
  split <;> split <;> omega

theorem slotId_injective {a b : Nat} (small : a < 2 ^ 32) (small' : b < 2 ^ 32)
    (same : slotId a = slotId b) : a = b := by
  rwa [slotId_eq_iff, Nat.mod_eq_of_lt small, Nat.mod_eq_of_lt small'] at same

/-- The id a call has taken and not yet given up. -/
def Phase.ticket? : Phase → Option Nat
  | .registering ticket _ | .held ticket _ | .extracting ticket _ _ => some ticket
  | _ => none

/-- What a call has in `active_slots_`. -/
def Phase.registered? : Phase → Option (Nat × Grant)
  | .held ticket admission | .extracting ticket admission _ => some (ticket, admission)
  | _ => none

/-- The admission whose completion has been mirrored onto the inner slot. -/
def Phase.mirrored? : Phase → Option (Grant × Completion Unit)
  | .unblocking admission call | .completed admission call => some (admission, call)
  | _ => none

/-- What a call may rely on: its id is taken, its entry is there, the slot it extracted is
its own, its completion is on record. -/
def Phase.Kept (s : Shared δ) : Phase → Prop
  | .registering ticket _ => ticket < s.nextSlotId
  | .held ticket admission | .extracting ticket admission _ =>
    ticket < s.nextSlotId ∧ s.activeSlots (slotId ticket) = some admission
  | .mirroring inner admission _ => inner = some admission
  | .unblocking admission call | .completed admission call =>
    (admission.id, call.status) ∈ s.completions
  | _ => True

theorem Phase.Kept.ticket_lt {s : Shared δ} {phase : Phase} {ticket : Nat} (kept : phase.Kept s)
    (taken : phase.ticket? = some ticket) : ticket < s.nextSlotId := by
  cases phase <;> simp only [ticket?, Option.some.injEq, reduceCtorEq] at taken
  · exact taken ▸ kept
  · exact taken ▸ kept.1
  · exact taken ▸ kept.1

theorem Phase.ticket_of_entry {phase : Phase} {ticket : Nat} {inner : Grant}
    (entry : phase.registered? = some (ticket, inner)) : phase.ticket? = some ticket := by
  cases phase <;> simp_all [registered?, ticket?]

/-- Steps of others do not disturb a call, unless they touch its entry. -/
theorem Phase.Kept.of_others {s s' : Shared δ} {phase : Phase} (kept : phase.Kept s)
    (ids : s.nextSlotId ≤ s'.nextSlotId) (log : s.completions ⊆ s'.completions)
    (entry : ∀ ticket admission, phase.registered? = some (ticket, admission) →
      s'.activeSlots (slotId ticket) = s.activeSlots (slotId ticket)) : phase.Kept s' := by
  cases phase with
  | registering ticket inner => exact Nat.lt_of_lt_of_le kept ids
  | held ticket admission | extracting ticket admission call =>
    exact ⟨Nat.lt_of_lt_of_le kept.1 ids, (entry ticket admission rfl).trans kept.2⟩
  | mirroring inner admission call => exact kept
  | unblocking admission call | completed admission call => exact log kept
  | _ => trivial

section Moves
variable {i : Nat} {context : Ctx} {s s' : Shared δ} {input : Input} {phase next : Phase}
  {made : Option (Slot Unit)}

theorem Moves.shared (own : phase.Own i)
    (moved : Moves d discipline i context s input phase s' next made) :
    s.nextSlotId ≤ s'.nextSlotId ∧ s.completions ⊆ s'.completions ∧
      ∀ key, (∀ ticket, phase.ticket? = some ticket → key ≠ slotId ticket) →
        s'.activeSlots key = s.activeSlots key := by
  cases moved with
  | numbered inner => exact ⟨Nat.le_succ _, List.Subset.refl _, fun _ _ => rfl⟩
  | @registered ticket inner free =>
    refine ⟨Nat.le_refl _, List.Subset.refl _, ?_⟩
    intro key other
    simp only [Function.update_of_ne (other ticket rfl)]
  | extracted ticket admission call =>
    refine ⟨Nat.le_refl _, List.Subset.refl _, ?_⟩
    intro key other
    have id : call.slot.partitionIndex = slotId ticket := by rw [own.2, outerSlot]
    simp only [id, Function.update_of_ne (other ticket rfl)]
  | collided | mirrored => exact ⟨Nat.le_refl _, List.subset_append_left .., fun _ _ => rfl⟩
  | _ => exact ⟨Nat.le_refl _, List.Subset.refl _, fun _ _ => rfl⟩

theorem Moves.kept (own : phase.Own i) (kept : phase.Kept s)
    (free : ∀ ticket inner, phase = .registering ticket inner →
      s.activeSlots (slotId ticket) = none)
    (moved : Moves d discipline i context s input phase s' next made) : next.Kept s' := by
  cases moved with
  | numbered inner => exact Nat.lt_succ_self _
  | @registered ticket inner free =>
    refine ⟨kept, ?_⟩
    simp only [Function.update_self]
  | @collided ticket inner other taken =>
    rw [free ticket inner rfl] at taken
    contradiction
  | extracted ticket admission call =>
    have id : call.slot.partitionIndex = slotId ticket := by rw [own.2, outerSlot]
    rw [id]
    exact kept.2
  | missing admission call => contradiction
  | mirrored inner admission call =>
    have same : some inner = some admission := kept
    cases same
    exact List.mem_append_right _ List.mem_cons_self
  | _ => trivial

theorem Moves.ticket {ticket : Nat}
    (moved : Moves d discipline i context s input phase s' next made)
    (taken : next.ticket? = some ticket) : phase.ticket? = some ticket ∨ ticket = s.nextSlotId := by
  cases moved with
  | numbered inner => exact .inr (Option.some.inj taken).symm
  | registered | collided => exact .inl taken
  | _ => contradiction

theorem Moves.keyed (own : phase.Own i)
    (moved : Moves d discipline i context s input phase s' next made) {key : Int} {inner : Grant}
    (free : ∀ ticket inner, phase = .registering ticket inner →
      s.activeSlots (slotId ticket) = none)
    (present : s'.activeSlots key = some inner) :
    (∃ ticket, next.registered? = some (ticket, inner) ∧ key = slotId ticket) ∨
      (s.activeSlots key = some inner ∧
        ∀ ticket other, phase.registered? = some (ticket, other) → key ≠ slotId ticket) := by
  cases moved with
  | @registered ticket slot _ =>
    simp only [Function.update_apply] at present
    split at present
    · rename_i here
      cases present
      exact .inl ⟨ticket, rfl, here⟩
    · exact .inr ⟨present, by simp [Phase.registered?]⟩
  | @collided ticket slot other taken =>
    rw [free ticket slot rfl] at taken
    contradiction
  | extracted ticket admission call =>
    have id : call.slot.partitionIndex = slotId ticket := by rw [own.2, outerSlot]
    simp only [id, Function.update_apply] at present
    split at present
    · contradiction
    · rename_i other
      refine .inr ⟨present, fun ticket' admission' entry same => other ?_⟩
      cases entry
      exact same
  | _ => exact .inr ⟨present, by simp [Phase.registered?]⟩

theorem Moves.log (kept : phase.Kept s)
    (free : ∀ ticket inner, phase = .registering ticket inner →
      s.activeSlots (slotId ticket) = none)
    (moved : Moves d discipline i context s input phase s' next made)
    {entry : Nat × CompletionStatus} (logged : entry ∈ s'.completions) :
    entry ∈ s.completions ∨
      ∃ admission call, next.mirrored? = some (admission, call) ∧
        entry = (admission.id, call.status) := by
  cases moved with
  | @collided ticket inner other taken =>
    rw [free ticket inner rfl] at taken
    contradiction
  | mirrored inner admission call =>
    have same : some inner = some admission := kept
    cases same
    rcases List.mem_append.mp logged with before | here
    · exact .inl before
    · exact .inr ⟨inner, call, rfl, List.mem_singleton.mp here⟩
  | _ => exact .inl logged

theorem Moves.unmirrored (moved : Moves d discipline i context s input phase s' next made) :
    phase.mirrored? = none := by
  cases moved <;> rfl
end Moves

namespace State
variable {s t : State Ctx δ} {e : Event Ctx}

/-- Ids, entries and completions belong to one call each. -/
structure Registered (s : State Ctx δ) : Prop where
  kept : ∀ (i : Nat) r, s.requests[i]? = some r → r.phase.Kept s.toShared
  distinct : ∀ (i j : Nat) r r' ticket, s.requests[i]? = some r → s.requests[j]? = some r' →
    r.phase.ticket? = some ticket → r'.phase.ticket? = some ticket → i = j
  keyed : ∀ key inner, s.activeSlots key = some inner → ∃ (i : Nat) (r : Request Ctx) (ticket : Nat),
    s.requests[i]? = some r ∧ r.phase.registered? = some (ticket, inner) ∧ key = slotId ticket
  logged : ∀ entry ∈ s.completions, ∃ (i : Nat) (r : Request Ctx) (admission : Grant)
    (call : Completion Unit), s.requests[i]? = some r ∧
      r.phase.mirrored? = some (admission, call) ∧ entry = (admission.id, call.status)

theorem start_registered (delegate : δ) : (start delegate : State Ctx δ).Registered where
  kept := by simp [start]
  distinct := by simp [start]
  keyed := by simp [start]
  logged := by simp [start]

/-- No other call than `i` has an entry under the id that `ticket` stands for. -/
def Apart (s : State Ctx δ) (i ticket : Nat) : Prop :=
  ∀ (j : Nat) r ticket' admission, s.requests[j]? = some r → j ≠ i →
    r.phase.registered? = some (ticket', admission) → slotId ticket' ≠ slotId ticket

/-- While ids do not come round, all calls are apart. -/
theorem apart_of_few (registered : s.Registered) (few : s.nextSlotId ≤ 2 ^ 32) {i : Nat}
    {r : Request Ctx} (found : s.requests[i]? = some r) {ticket : Nat}
    (taken : r.phase.ticket? = some ticket) : s.Apart i ticket := by
  intro j r' ticket' admission found' other entry same
  have taken' := Phase.ticket_of_entry entry
  have below := (registered.kept i r found).ticket_lt taken
  have below' := (registered.kept j r' found').ticket_lt taken'
  obtain rfl := slotId_injective (by omega) (by omega) same
  exact other (registered.distinct j i r' r ticket' found' found taken' taken)

/-- A call that is apart from the others does not find its id taken. -/
theorem key_free (registered : s.Registered) {i : Nat} {r : Request Ctx}
    (found : s.requests[i]? = some r)
    (apart : ∀ ticket, r.phase.ticket? = some ticket → s.Apart i ticket) (ticket : Nat)
    (inner : Grant) (atRegister : r.phase = .registering ticket inner) :
    s.activeSlots (slotId ticket) = none := by
  have taken : r.phase.ticket? = some ticket := by
    rw [atRegister]
    rfl
  by_contra present
  obtain ⟨other, there⟩ := Option.ne_none_iff_exists'.mp present
  obtain ⟨j, r', ticket', found', entry, same⟩ := registered.keyed _ _ there
  by_cases here : j = i
  · subst here
    obtain rfl : r = r' := by simpa [found] using found'
    rw [atRegister] at entry
    cases entry
  · exact apart ticket taken j r' ticket' other found' here entry same.symm

theorem registered_advance {i : Nat} {input : Input} {r : Request Ctx} {shared : Shared δ}
    {next : Phase} {made : Option (Slot Unit)} {heap : Heap Unit} (valid : s.Valid)
    (registered : s.Registered) (found : s.requests[i]? = some r)
    (apart : ∀ ticket, r.phase.ticket? = some ticket → s.Apart i ticket)
    (moved : Moves d discipline i r.context s.toShared input r.phase shared next made) :
    Registered
      { s with toShared := shared, requests := s.requests.modify i (.moveTo next), heap } := by
  have own := valid.own i r found
  have free := key_free registered found apart
  have kept := registered.kept i r found
  obtain ⟨ids, log, others⟩ := moved.shared own
  have self := Pool.getElem?_modify_self (Request.moveTo next) found
  have elsewhere {j : Nat} {r' : Request Ctx} (found' : s.requests[j]? = some r') (other : j ≠ i) :
      (s.requests.modify i (Request.moveTo next))[j]? = some r' := by
    rw [Pool.getElem?_modify_other _ other, found']
  have fresh {j : Nat} {r' : Request Ctx} {ticket : Nat} (found' : s.requests[j]? = some r')
      (other : j ≠ i) (taken : next.ticket? = some ticket)
      (taken' : r'.phase.ticket? = some ticket) : False := by
    rcases moved.ticket taken with mine | new
    · exact other (registered.distinct j i r' r ticket found' found taken' mine)
    · have below := (registered.kept j r' found').ticket_lt taken'
      rw [new] at below
      exact Nat.lt_irrefl _ below
  constructor
  · intro j r' found'
    rcases Pool.getElem?_modify_cases found found' with ⟨rfl, rfl⟩ | ⟨other, before⟩
    · exact moved.kept own kept free
    · refine (registered.kept j r' before).of_others ids log ?_
      intro ticket admission entry
      exact others _ fun ticket' mine => apart ticket' mine j r' ticket admission before other entry
  · intro j k r' r'' ticket found' found'' taken taken'
    rcases Pool.getElem?_modify_cases found found' with ⟨rfl, rfl⟩ | ⟨other, before⟩ <;>
      rcases Pool.getElem?_modify_cases found found'' with ⟨rfl, rfl⟩ | ⟨other', before'⟩
    · rfl
    · exact (fresh before' other' taken taken').elim
    · exact (fresh before other taken' taken).elim
    · exact registered.distinct j k r' r'' ticket before before' taken taken'
  · intro key inner present
    rcases moved.keyed own free present with ⟨ticket, entry, key⟩ | ⟨before, notMine⟩
    · exact ⟨i, _, ticket, self, entry, key⟩
    · obtain ⟨j, r', ticket, found', entry, key⟩ := registered.keyed _ _ before
      refine ⟨j, r', ticket, elsewhere found' ?_, entry, key⟩
      rintro rfl
      obtain rfl : r = r' := by simpa [found] using found'
      exact notMine ticket inner entry key
  · intro entry member
    rcases moved.log kept free member with before | ⟨admission, call, mirrored, entry⟩
    · obtain ⟨j, r', admission, call, found', mirrored, entry⟩ := registered.logged _ before
      refine ⟨j, r', admission, call, elsewhere found' ?_, mirrored, entry⟩
      rintro rfl
      obtain rfl : r = r' := by simpa [found] using found'
      rw [moved.unmirrored] at mirrored
      contradiction
    · exact ⟨i, _, admission, call, self, mirrored, entry⟩

/-- A call may change its phase as long as its id, entry and completion stay. -/
theorem registered_relabel {i : Nat} {r : Request Ctx} {f : Request Ctx → Request Ctx}
    (registered : s.Registered) (found : s.requests[i]? = some r)
    (requests : t.requests = s.requests.modify i f) (ids : t.nextSlotId = s.nextSlotId)
    (entries : t.activeSlots = s.activeSlots) (log : t.completions = s.completions)
    (kept : (f r).phase.Kept s.toShared) (ticket : (f r).phase.ticket? = r.phase.ticket?)
    (entry : (f r).phase.registered? = r.phase.registered?)
    (mirrored : (f r).phase.mirrored? = r.phase.mirrored?) : t.Registered := by
  have view {j : Nat} {r' : Request Ctx} (found' : s.requests[j]? = some r') :
      ∃ r'', t.requests[j]? = some r'' ∧ r''.phase.ticket? = r'.phase.ticket? ∧
        r''.phase.registered? = r'.phase.registered? ∧ r''.phase.mirrored? = r'.phase.mirrored? := by
    rw [requests]
    by_cases here : j = i
    · subst here
      obtain rfl : r = r' := by simpa [found] using found'
      exact ⟨f r, Pool.getElem?_modify_self f found, ticket, entry, mirrored⟩
    · exact ⟨r', by rw [Pool.getElem?_modify_other f here, found'], rfl, rfl, rfl⟩
  have origin {j : Nat} {r' : Request Ctx} (found' : t.requests[j]? = some r') :
      ∃ r'', s.requests[j]? = some r'' ∧ r''.phase.ticket? = r'.phase.ticket? := by
    rw [requests] at found'
    rcases Pool.getElem?_modify_cases found found' with ⟨rfl, rfl⟩ | ⟨_, before⟩
    · exact ⟨r, found, ticket.symm⟩
    · exact ⟨r', before, rfl⟩
  have still {phase : Phase} (kept : phase.Kept s.toShared) : phase.Kept t.toShared :=
    kept.of_others ids.ge (by rw [log]; exact List.Subset.refl _) fun _ _ _ => by rw [entries]
  constructor
  · intro j r' found'
    rw [requests] at found'
    rcases Pool.getElem?_modify_cases found found' with ⟨rfl, rfl⟩ | ⟨_, before⟩
    · exact still kept
    · exact still (registered.kept j r' before)
  · intro j k r' r'' number found' found'' taken taken'
    obtain ⟨_, before, same⟩ := origin found'
    obtain ⟨_, before', same'⟩ := origin found''
    exact registered.distinct j k _ _ number before before' (same.trans taken) (same'.trans taken')
  · intro key inner present
    rw [entries] at present
    obtain ⟨j, r', number, found', there, key⟩ := registered.keyed _ _ present
    obtain ⟨r'', found'', _, same, _⟩ := view found'
    exact ⟨j, r'', number, found'', same.trans there, key⟩
  · intro logged member
    rw [log] at member
    obtain ⟨j, r', admission, call, found', there, entry⟩ := registered.logged _ member
    obtain ⟨r'', found'', _, _, same⟩ := view found'
    exact ⟨j, r'', admission, call, found'', same.trans there, entry⟩

theorem registered_unblock (now : Nat → Int) (valid : s.Valid) (registered : s.Registered) :
    (unblock d now s.queue s).Registered := by
  apply unblock_valid_invariant (P := Registered) ?_ ?_ valid registered
  · intro u w rest r delegate slot now valid registered queue found _
    obtain ⟨waiter, waits, _⟩ := valid.front queue found
    refine registered_relabel registered found rfl rfl rfl rfl ?_ ?_ ?_ ?_ <;>
      cases phase : r.phase <;>
      simp_all [Phase.waiter?, Request.deliver, Request.moveTo, Phase.deliver, Phase.Kept,
        Phase.ticket?, Phase.registered?, Phase.mirrored?]
  · intro u r delegate now registered _
    exact ⟨registered.kept, registered.distinct, registered.keyed, registered.logged⟩

theorem registered_step (valid : s.Valid) (registered : s.Registered)
    (apart : ∀ i input r ticket, e = .advance i input → s.requests[i]? = some r →
      r.phase.ticket? = some ticket → s.Apart i ticket)
    (stepped : s.step d discipline e = some t) : t.Registered := by
  cases e with
  | tryAcquire context =>
    cases stepped
    have still {j : Nat} {r : Request Ctx} (found : s.requests[j]? = some r) :
        (s.requests ++ [⟨context, .trying⟩])[j]? = some r :=
      Pool.getElem?_concat_eq_some.mpr (.inl found)
    have origin {j : Nat} {r : Request Ctx} {ticket : Nat}
        (found : (s.requests ++ [⟨context, .trying⟩])[j]? = some r)
        (taken : r.phase.ticket? = some ticket) : s.requests[j]? = some r := by
      rcases Pool.getElem?_concat_eq_some.mp found with before | ⟨_, rfl⟩
      · exact before
      · contradiction
    constructor
    · intro j r found
      rcases Pool.getElem?_concat_eq_some.mp found with before | ⟨_, rfl⟩
      · exact registered.kept j r before
      · trivial
    · intro j k r r' ticket found found' taken taken'
      exact registered.distinct j k r r' ticket (origin found taken) (origin found' taken')
        taken taken'
    · intro key inner present
      obtain ⟨j, r, ticket, found, entry, key⟩ := registered.keyed _ _ present
      exact ⟨j, r, ticket, still found, entry, key⟩
    · intro entry member
      obtain ⟨j, r, admission, call, found, mirrored, entry⟩ := registered.logged _ member
      exact ⟨j, r, admission, call, still found, mirrored, entry⟩
  | advance i input =>
    obtain ⟨r, found, ⟨admission, call, atUnblock, rfl⟩ |
      ⟨shared, next, made, heap, moved, _, rfl⟩⟩ := step_advance stepped
    · have after : (unblock d input.now s.queue s).Registered :=
        registered_unblock input.now valid registered
      have kept : (unblock d input.now s.queue s).requests[i]? = some r :=
        unblock_keeps valid found (by rw [atUnblock]; rfl)
      have logged := after.kept i r kept
      rw [atUnblock] at logged
      refine registered_relabel after kept rfl rfl rfl rfl logged ?_ ?_ ?_ <;>
        rw [atUnblock] <;> rfl
    · exact registered_advance valid registered found
        (fun ticket taken => apart i input r ticket rfl found taken) moved
  | guard op =>
    rcases step_guard valid stepped with
      ⟨heap, rfl, _⟩ | ⟨heap, call, r, ticket, admission, found, atHeld, _, rfl, _⟩
    · exact ⟨registered.kept, registered.distinct, registered.keyed, registered.logged⟩
    · have kept := registered.kept _ r found
      rw [atHeld] at kept
      refine registered_relabel registered found rfl rfl rfl rfl kept ?_ ?_ ?_ <;>
        rw [atHeld] <;> rfl
  | setLimit value =>
    cases stepped
    exact ⟨registered.kept, registered.distinct, registered.keyed, registered.logged⟩

theorem nextSlotId_step (valid : s.Valid) (stepped : s.step d discipline e = some t) :
    s.nextSlotId ≤ t.nextSlotId := by
  cases e with
  | tryAcquire context | setLimit value =>
    cases stepped
    exact Nat.le_refl _
  | advance i input =>
    obtain ⟨r, found, ⟨admission, call, atUnblock, rfl⟩ |
      ⟨shared, next, made, heap, moved, _, rfl⟩⟩ := step_advance stepped
    · have same : (unblock d input.now s.queue s).nextSlotId = s.nextSlotId :=
        unblock_invariant (P := fun t => t.nextSlotId = s.nextSlotId) (fun kept _ _ _ => kept)
          (fun kept _ _ _ => kept) rfl rfl
      exact Nat.le_of_eq same.symm
    · exact (moved.shared (valid.own i r found)).1
  | guard op =>
    rcases step_guard valid stepped with
      ⟨heap, rfl, _⟩ | ⟨heap, call, r, ticket, admission, found, atHeld, _, rfl, _⟩ <;>
      exact Nat.le_refl _

theorem run_registered {delegate : δ} {es : List (Event Ctx)}
    (ran : run (step d discipline) (start delegate) es = some s) (few : s.nextSlotId ≤ 2 ^ 32) :
    s.Registered := by
  refine valid_invariant (P := fun s : State Ctx δ => s.nextSlotId ≤ 2 ^ 32 → s.Registered) ?_
    (start_valid delegate) ran (fun _ => start_registered delegate) few
  intro s e t valid registered stepped few
  have before := (nextSlotId_step valid stepped).trans few
  exact registered_step valid (registered before)
    (fun _ _ _ _ _ found taken => apart_of_few (registered before) before found taken) stepped
end State
end Limen.BlockingLimiter
