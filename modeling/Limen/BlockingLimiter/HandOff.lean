import Limen.BlockingLimiter.Registration

/-! Slots on their way from the delegate to an outer guard and back. Whichever way a run
interleaves, none is lost, none is completed twice, and a delivery that meets a timeout is
returned to the caller. -/
namespace Limen.BlockingLimiter
open Transition
open AbstractLimiter (Counters)

/-- The call has a slot, or had one. -/
def Phase.served : Phase → Bool
  | .trying | .parking | .refused => false
  | .waiting waiter | .awake waiter => waiter.slot.isSome
  | .numbering _ | .registering _ _ | .held _ _ | .extracting _ _ _ | .mirroring _ _ _
  | .unblocking _ _ | .completed _ _ => true

/-- `TryAcquire` has returned. -/
def Phase.returned : Phase → Bool
  | .refused | .held _ _ | .extracting _ _ _ | .mirroring _ _ _ | .unblocking _ _
  | .completed _ _ => true
  | .trying | .numbering _ | .registering _ _ | .parking | .waiting _ | .awake _ => false

/-- Nothing of the call is under way: it has returned and no completion runs, or it is
parked and not notified. -/
def Phase.rests : Phase → Bool
  | .refused | .held _ _ | .completed _ _ => true
  | .waiting waiter => waiter.slot.isNone
  | _ => false

/-- The inner slot that the call was granted and that is not completed. -/
def Phase.grant? : Phase → Option Grant
  | .numbering inner | .registering _ inner => some inner
  | .waiting waiter | .awake waiter => waiter.slot
  | .held _ admission | .extracting _ admission _ => some admission
  | .mirroring inner _ _ => inner
  | .trying | .parking | .refused | .unblocking _ _ | .completed _ _ => none

/-- The delegate counts the slot as in flight. -/
def Grant.charged (inner : Grant) : Bool := !inner.slot.bypassed

def Phase.charged (phase : Phase) : Bool := phase.grant?.any Grant.charged

/-- An uncompleted outer guard over a slot that the delegate counts. -/
def Phase.holdsCharged : Phase → Bool
  | .held _ admission => admission.charged
  | _ => false

section Moves
variable {Ctx δ : Type} {discipline : Discipline} {i : Nat} {context : Ctx} {input : Input}
  {phase next : Phase} {made : Option (Slot Unit)}

theorem Moves.served {d : Delegate Ctx δ} {s s' : Shared δ}
    (moved : Moves d discipline i context s input phase s' next made)
    (served : phase.served = true) : next.served = true := by
  cases moved with
  | timedOut empty =>
    simp only [Phase.served, empty] at served
    contradiction
  | woken waiter => exact served
  | rejected | turnedAway | parked => contradiction
  | _ => rfl

/-- A step changes the counter of the delegate by what its call owes. -/
theorem Moves.charged {bypass : Ctx → Bool} {s s' : Shared (Counters Unit)} (own : phase.Own i)
    (kept : phase.Kept s)
    (free : ∀ ticket inner, phase = .registering ticket inner →
      s.activeSlots (slotId ticket) = none)
    (moved : Moves (simpleDelegate bypass) discipline i context s input phase s' next made) :
    s'.delegate.inflight + (if phase.charged then 1 else 0) =
      s.delegate.inflight + (if next.charged then 1 else 0) := by
  cases moved with
  | @admitted delegate slot tried =>
    obtain ⟨_, after, _⟩ := simple_admits tried
    cases bypassed : slot.bypassed <;>
      simp [Phase.charged, Phase.grant?, Grant.charged, bypassed, after]
  | rejected tried =>
    obtain ⟨_, _, same⟩ := simple_refuses tried
    simp [Phase.charged, Phase.grant?, same]
  | @collided ticket inner other taken =>
    rw [free ticket inner rfl] at taken
    contradiction
  | @delivered waiter inner slot =>
    have same : (Phase.awake waiter).charged = (Phase.numbering inner).charged := by
      simp only [Phase.charged, Phase.grant?, slot]
    rw [same]
  | timedOut empty => simp [Phase.charged, Phase.grant?, empty]
  | extracted ticket admission call =>
    have id : call.slot.partitionIndex = slotId ticket := by rw [own.2, outerSlot]
    rw [id, kept.2]
    rfl
  | missing admission call => contradiction
  | mirrored inner admission call =>
    rw [complete_inflight]
    cases bypassed : inner.slot.bypassed <;>
      simp [Phase.charged, Phase.grant?, Grant.charged, bypassed]
  | _ => rfl
end Moves

namespace State
variable {Ctx δ : Type} {discipline : Discipline}

/-- A slot once delivered stays with the call. -/
theorem served_step {d : Delegate Ctx δ} {s t : State Ctx δ} {e : Event Ctx} {i : Nat}
    {r : Request Ctx} (valid : s.Valid) (found : s.requests[i]? = some r)
    (served : r.phase.served = true) (stepped : s.step d discipline e = some t) :
    ∃ r', t.requests[i]? = some r' ∧ r'.phase.served = true := by
  refine phase_step (Q := fun phase => phase.served = true) ?_ ?_ ?_ ?_ valid found served stepped
  · intro j context shared input phase shared' next made moved served
    exact moved.served served
  · intro phase inner served
    cases phase <;> first | rfl | exact served
  · intro ticket admission call _
    rfl
  · intro admission call _
    rfl

/-- A call that returned `nullopt` never had a slot delivered. -/
theorem refused_undelivered {d : Delegate Ctx δ} {s u : State Ctx δ} {delegate : δ}
    {es : List (Event Ctx)} {i : Nat} {r r' : Request Ctx}
    (ran : run (step d discipline) (start delegate) es = some s) (found : s.requests[i]? = some r)
    (refused : r.phase = .refused) (visits : Visits (step d discipline) (start delegate) es u)
    (found' : u.requests[i]? = some r') : r'.phase.owned .waiting = none := by
  obtain ⟨before, after, rfl, toU⟩ := visits
  obtain ⟨u', toU', onward⟩ := run_append_eq_some.mp ran
  obtain rfl : u = u' := by simpa [toU] using toU'
  by_contra delivered
  have served : r'.phase.served = true := by
    cases phase : r'.phase <;> simp_all [Phase.owned, Phase.served, Option.isSome_iff_ne_none]
  obtain ⟨r'', found'', still⟩ : ∃ r', s.requests[i]? = some r' ∧ r'.phase.served = true := by
    refine valid_invariant (P := fun t : State Ctx δ =>
      ∃ r', t.requests[i]? = some r' ∧ r'.phase.served = true) ?_ (run_valid toU) onward
      ⟨r', found', served⟩
    rintro s e t valid ⟨_, found, served⟩ stepped
    exact served_step valid found served stepped
  obtain rfl : r = r'' := by simpa [found] using found''
  rw [refused] at still
  contradiction

theorem returned_unqueued {s : State Ctx δ} {i : Nat} {r : Request Ctx} (valid : s.Valid)
    (found : s.requests[i]? = some r) (returned : r.phase.returned = true) : i ∉ s.queue := by
  intro member
  obtain ⟨r', waiter, found', waits, _⟩ := valid.queued i member
  obtain rfl : r = r' := by simpa [found] using found'
  cases phase : r.phase <;> simp [phase, Phase.waiter?, Phase.returned] at waits returned

section Inflight
variable {bypass : Ctx → Bool} {s t : State Ctx (Counters Unit)} {e : Event Ctx}

/-- The delegate counts the slots that calls have and the delegate counts. -/
def Counted (s : State Ctx (Counters Unit)) : Prop :=
  s.delegate.inflight = s.requests.countP fun r => r.phase.charged

theorem counted_modify {i : Nat} {r : Request Ctx} {f : Request Ctx → Request Ctx}
    (counted : s.Counted) (found : s.requests[i]? = some r)
    (requests : t.requests = s.requests.modify i f)
    (changes : t.delegate.inflight + (if r.phase.charged then 1 else 0) =
      s.delegate.inflight + (if (f r).phase.charged then 1 else 0)) : t.Counted := by
  have counts := Pool.countP_modify (fun r => r.phase.charged) f found
  rw [Counted, requests]
  rw [Counted] at counted
  split at changes <;> split at changes <;> simp_all
  all_goals omega

theorem counted_handOff {w : Nat} {rest : List Nat} {r : Request Ctx} {delegate : Counters Unit}
    {slot : Slot Unit} {now : Int} (valid : s.Valid) (counted : s.Counted)
    (queue : s.queue = w :: rest) (found : s.requests[w]? = some r)
    (granted : (simpleDelegate bypass).tryAcquire s.delegate r.context now =
      (delegate, some slot)) : (s.handOff w rest delegate slot).Counted := by
  obtain ⟨waiter, waits, empty⟩ := valid.front queue found
  have before : r.phase.charged = false := by
    cases phase : r.phase <;> simp_all [Phase.waiter?, Phase.charged, Phase.grant?]
  have after : (r.phase.deliver ⟨s.granted, slot⟩).charged = !slot.bypassed := by
    cases phase : r.phase <;>
      simp_all [Phase.waiter?, Phase.charged, Phase.grant?, Phase.deliver, Grant.charged]
  apply counted_modify counted found rfl
  obtain ⟨_, more, _⟩ := simple_admits granted
  cases bypassed : slot.bypassed <;>
    simp [handOff, before, Request.deliver, Request.moveTo, after, bypassed, more]

theorem counted_unblock (now : Nat → Int) (valid : s.Valid) (counted : s.Counted) :
    (unblock (simpleDelegate bypass) now s.queue s).Counted := by
  apply unblock_valid_invariant (P := Counted) ?_ ?_ valid counted
  · intro u w rest r delegate slot now valid counted queue found granted
    exact counted_handOff valid counted queue found granted
  · intro u r delegate now counted refused
    obtain ⟨_, _, same⟩ := simple_refuses refused
    exact same.trans counted

theorem counted_step (valid : s.Valid) (registered : s.Registered)
    (few : s.nextSlotId ≤ 2 ^ 32) (counted : s.Counted)
    (stepped : s.step (simpleDelegate bypass) discipline e = some t) : t.Counted := by
  cases e with
  | tryAcquire context =>
    cases stepped
    rw [Counted, Pool.countP_concat]
    exact counted
  | setLimit value =>
    cases stepped
    exact counted
  | advance i input =>
    obtain ⟨r, found, ⟨admission, call, atUnblock, rfl⟩ |
      ⟨shared, next, made, heap, moved, _, rfl⟩⟩ := step_advance stepped
    · have kept : (unblock (simpleDelegate bypass) input.now s.queue s).requests[i]? = some r :=
        unblock_keeps valid found (by rw [atUnblock]; rfl)
      apply counted_modify (counted_unblock input.now valid counted) kept rfl
      rw [atUnblock]
      rfl
    · apply counted_modify counted found rfl
      exact moved.charged (valid.own i r found) (registered.kept i r found)
        (key_free registered found fun _ taken => apart_of_few registered few found taken)
  | guard op =>
    rcases step_guard valid stepped with
      ⟨heap, rfl, _⟩ | ⟨heap, call, r, ticket, admission, found, atHeld, _, rfl, _⟩
    · exact counted
    · apply counted_modify counted found rfl
      rw [atHeld]
      rfl

theorem run_counted {limit : Int} {es : List (Event Ctx)}
    (ran : run (step (simpleDelegate bypass) discipline) (initial Ctx limit) es = some s)
    (few : s.nextSlotId ≤ 2 ^ 32) : s.Counted := by
  refine (valid_invariant (P := fun s : State Ctx (Counters Unit) =>
    s.nextSlotId ≤ 2 ^ 32 → s.Registered ∧ s.Counted) ?_ (start_valid _) ran ?_ few).2
  · intro s e t valid intact stepped few
    have before := (nextSlotId_step valid stepped).trans few
    obtain ⟨registered, counted⟩ := intact before
    have apart {i : Nat} {r : Request Ctx} {ticket : Nat} (found : s.requests[i]? = some r)
        (taken : r.phase.ticket? = some ticket) : s.Apart i ticket :=
      apart_of_few registered before found taken
    exact ⟨registered_step valid registered (fun _ _ _ _ _ found taken => apart found taken) stepped,
      counted_step valid registered before counted stepped⟩
  · intro _
    exact ⟨start_registered _, rfl⟩

/-- Nobody executes inside the limiter; callers that are parked have not been notified. -/
def AtRest (s : State Ctx (Counters Unit)) : Prop := ∀ r ∈ s.requests, r.phase.rests = true

instance (s : State Ctx (Counters Unit)) : Decidable s.AtRest :=
  inferInstanceAs (Decidable (∀ r ∈ s.requests, r.phase.rests = true))

theorem inflight_atRest (counted : s.Counted) (rest : s.AtRest) :
    s.delegate.inflight = s.requests.countP fun r => r.phase.holdsCharged := by
  apply counted.trans
  congr 1
  apply List.countP_congr
  intro r member
  have rests := rest r member
  cases phase : r.phase <;>
    simp_all [Phase.rests, Phase.charged, Phase.grant?, Phase.holdsCharged]

/-- The outer guards that nobody has completed are those of the calls that hold one, and
the entry under a guard's id is the inner slot it stands for. -/
theorem guards_registered (valid : s.Valid) (registered : s.Registered) (i : Nat)
    (slot : Slot Unit) : s.heap.owners.Holds i slot ↔ ∃ r ticket admission,
      s.requests[i]? = some r ∧ r.phase = .held ticket admission ∧ slot = outerSlot ticket ∧
      s.owner (.entry slot.partitionIndex) = some admission := by
  rw [valid.agrees.holds, outer, Option.bind_eq_some_iff]
  constructor
  · rintro ⟨r, found, outer⟩
    have kept := registered.kept i r found
    cases phase : r.phase <;>
      simp only [phase, Phase.outer?, Option.some.injEq, reduceCtorEq] at outer
    case held ticket admission =>
      rw [phase] at kept
      refine ⟨r, ticket, admission, found, phase, outer.symm, ?_⟩
      simp only [← outer, owner, outerSlot]
      exact kept.2
  · rintro ⟨r, ticket, admission, found, atHeld, rfl, _⟩
    exact ⟨r, found, by rw [atHeld]; rfl⟩

/-- A completion that has been mirrored is the only one of its inner slot. -/
theorem mirrored_once (registered : s.Registered) (sound : Custody.Sound Grant.id s.ledger)
    {i : Nat} {r : Request Ctx} {admission : Grant} {call : Completion Unit}
    (found : s.requests[i]? = some r) (mirrored : r.phase.mirrored? = some (admission, call)) :
    about admission.id s.completions = [call.status] := by
  have kept := registered.kept i r found
  have logged : (admission.id, call.status) ∈ s.completions := by
    cases phase : r.phase <;>
      simp only [phase, Phase.mirrored?, Option.some.injEq, Prod.mk.injEq, reduceCtorEq] at mirrored
    all_goals
      obtain ⟨rfl, rfl⟩ := mirrored
      rw [phase] at kept
      exact kept
  have member : call.status ∈ about admission.id s.completions := mem_about.mpr logged
  by_cases issued : admission.id < s.granted
  · rcases sound.custody issued with ⟨_, none⟩ | ⟨_, status, once⟩
    · have none : about admission.id s.completions = [] := none
      rw [none] at member
      contradiction
    · have once : about admission.id s.completions = [status] := once
      rw [once, List.mem_singleton] at member
      rw [once, member]
  · have none : about admission.id s.completions = [] :=
      sound.unissued admission.id (Nat.not_lt.mp issued)
    rw [none] at member
    contradiction

/-- What holds of slots, guards and callers where a run ends. -/
structure HandedOn (bypass : Ctx → Bool) (discipline : Discipline) (limit : Int)
    (es : List (Event Ctx)) (s : State Ctx (Counters Unit)) : Prop where
  /-- A granted slot has one owner, or it was completed once, by the call whose outer guard
  it belongs to and with the status of that guard's completion. -/
  owned : ∀ g < s.granted,
    ((∃! place, ∃ inner, s.owner place = some inner ∧ inner.id = g) ∧
      about g s.completions = []) ∨
    ((∀ place inner, s.owner place = some inner → inner.id ≠ g) ∧
      ∃ (i : Nat) (r : Request Ctx) (admission : Grant) (call : Completion Unit),
        s.requests[i]? = some r ∧ r.phase.mirrored? = some (admission, call) ∧ call.id = i ∧
        admission.id = g ∧ about g s.completions = [call.status])
  /-- What the completion of an outer guard mirrors is the only completion of its slot. -/
  mirrored : ∀ (i : Nat) r admission call, s.requests[i]? = some r →
    r.phase.mirrored? = some (admission, call) → about admission.id s.completions = [call.status]
  guarded : ∀ (i : Nat) slot, s.heap.owners.Holds i slot ↔ ∃ r ticket admission,
    s.requests[i]? = some r ∧ r.phase = .held ticket admission ∧ slot = outerSlot ticket ∧
    s.owner (.entry slot.partitionIndex) = some admission
  undelivered : ∀ (i : Nat) r, s.requests[i]? = some r → r.phase = .refused →
    ∀ u, Visits (step (simpleDelegate bypass) discipline) (initial Ctx limit) es u →
    ∀ r', u.requests[i]? = some r' → r'.phase.owned .waiting = none
  unqueued : ∀ (i : Nat) r, s.requests[i]? = some r → r.phase.returned = true → i ∉ s.queue
  counted : s.AtRest →
    s.delegate.inflight = s.requests.countP fun r => r.phase.holdsCharged

/-- Slots are handed on and none is lost, in every run that takes at most `2 ^ 32` ids. -/
theorem slots_conserved {limit : Int} {es : List (Event Ctx)}
    (ran : run (step (simpleDelegate bypass) discipline) (initial Ctx limit) es = some s)
    (few : s.nextSlotId ≤ 2 ^ 32) : HandedOn bypass discipline limit es s := by
  have valid : s.Valid := run_valid ran
  have sound : Custody.Sound Grant.id s.ledger := run_sound ran
  have registered : s.Registered := run_registered ran few
  refine ⟨?_, ?_,
    guards_registered valid registered, ?_,
    fun i r found returned => returned_unqueued valid found returned,
    inflight_atRest (run_counted ran few)⟩
  · intro g issued
    refine (sound.custody issued).imp_right ?_
    rintro ⟨nowhere, status, once⟩
    have once : about g s.completions = [status] := once
    refine ⟨nowhere, ?_⟩
    have logged : (g, status) ∈ s.completions := by
      rw [← mem_about, once]
      exact List.mem_cons_self
    obtain ⟨i, r, admission, call, found, mirrored, entry⟩ := registered.logged _ logged
    obtain ⟨rfl, rfl⟩ := Prod.mk.inj entry
    refine ⟨i, r, admission, call, found, mirrored, ?_, rfl, once⟩
    have own := valid.own i r found
    cases phase : r.phase <;>
      simp only [phase, Phase.mirrored?, Option.some.injEq, Prod.mk.injEq, reduceCtorEq] at mirrored
    all_goals
      obtain ⟨rfl, rfl⟩ := mirrored
      rw [phase] at own
      exact own
  · intro i r admission call found mirrored
    exact mirrored_once registered sound found mirrored
  · intro i r found refused u visits r' found'
    exact refused_undelivered ran found refused visits found'
end Inflight

/-- The second caller parks and its wait times out; before it is back under `mu_`, the
first call completes and delivers. -/
def timeoutRace : List (Event Unit) :=
  [.tryAcquire (), .advance 0 {}, .advance 0 {}, .advance 0 {},
    .tryAcquire (), .advance 1 {}, .advance 1 {}, .advance 1 {},
    .guard (.complete 0 .success), .advance 0 {}, .advance 0 {}, .advance 0 {},
    .advance 1 {}, .advance 1 {}, .advance 1 { addr := 1 }]

theorem timeoutRace_conserved : ∃ s,
    run (step (simpleDelegate fun _ => false) .fifo) (initial Unit 1) timeoutRace = some s ∧
    s.nextSlotId ≤ 2 ^ 32 ∧ s.AtRest ∧
    s.delegate.inflight = s.requests.countP fun r => r.phase.holdsCharged := by
  have ended : (run (step (simpleDelegate fun _ => false) .fifo) (initial Unit 1) timeoutRace).map
      (fun s => (s.nextSlotId, decide s.AtRest)) = some (2, true) := by decide +kernel
  obtain ⟨s, ran, seen⟩ := Option.map_eq_some_iff.mp ended
  obtain ⟨ids, rest⟩ := Prod.mk.inj seen
  have few : s.nextSlotId ≤ 2 ^ 32 := by
    rw [ids]
    decide
  have atRest : s.AtRest := of_decide_eq_true rest
  exact ⟨s, ran, few, atRest, (slots_conserved ran few).counted atRest⟩

/-- A bypassed call, up to its outer guard. -/
def bypassing : List (Event Unit) :=
  [.tryAcquire (), .advance 0 {}, .advance 0 {}, .advance 0 {}]

theorem bypassing_ends (discipline : Discipline) (known : discipline ∈ [.fifo, .lifo 1]) : ∃ s,
    run (step (simpleDelegate fun _ => true) discipline) (initial Unit 1) bypassing = some s ∧
    s.nextSlotId < 2 ^ 32 ∧ s.AtRest ∧ s.delegate.inflight = 0 ∧
    s.requests.countP (fun r => r.phase.outer?.isSome) = 1 := by
  have ended : ∀ discipline ∈ [Discipline.fifo, .lifo 1],
      (run (step (simpleDelegate fun _ => true) discipline) (initial Unit 1) bypassing).map
        (fun s => (s.nextSlotId, decide s.AtRest, s.delegate.inflight,
          s.requests.countP fun r => r.phase.outer?.isSome)) = some (1, true, 0, 1) := by
    decide +kernel
  obtain ⟨s, ran, seen⟩ := Option.map_eq_some_iff.mp (ended discipline known)
  simp only [Prod.mk.injEq, decide_eq_true_eq] at seen
  obtain ⟨ids, rest, inflight, guards⟩ := seen
  exact ⟨s, ran, by omega, rest, inflight, guards⟩

/-- A bypassed call holds an outer guard that the delegate does not count, and a caller
that has waited owns its slot in a local of the slow path. -/
theorem bypassed_uncounted :
    (¬ ∀ s, run (step (simpleDelegate fun _ => true) .fifo) (initial Unit 1) bypassing = some s →
      s.nextSlotId < 2 ^ 32 → s.AtRest →
      s.delegate.inflight = s.requests.countP fun r => r.phase.outer?.isSome) ∧
    (¬ ∀ s, run (step (simpleDelegate fun _ => true) (.lifo 1)) (initial Unit 1) bypassing =
        some s → s.nextSlotId < 2 ^ 32 → s.AtRest →
      s.delegate.inflight = s.requests.countP fun r => r.phase.outer?.isSome) ∧
    ∃ waits takes,
      run (step (simpleDelegate fun _ => false) .fifo) (initial Unit 1) (timeoutRace.take 7) =
        some waits ∧ waits.queue = [1] ∧
      run (step (simpleDelegate fun _ => false) .fifo) (initial Unit 1) (timeoutRace.take 13) =
        some takes ∧ (takes.owner (.call 1 .acquiring)).map Grant.id = some 1 := by
  refine ⟨?_, ?_, ?_⟩
  · intro counts
    obtain ⟨s, ran, few, rest, inflight, guards⟩ := bypassing_ends .fifo (by decide)
    have same := counts s ran few rest
    omega
  · intro counts
    obtain ⟨s, ran, few, rest, inflight, guards⟩ := bypassing_ends (.lifo 1) (by decide)
    have same := counts s ran few rest
    omega
  · have waits : (run (step (simpleDelegate fun _ => false) .fifo) (initial Unit 1)
        (timeoutRace.take 7)).map (fun s => s.queue) = some [1] := by decide +kernel
    have takes : (run (step (simpleDelegate fun _ => false) .fifo) (initial Unit 1)
        (timeoutRace.take 13)).map (fun s => (s.owner (.call 1 .acquiring)).map Grant.id) =
        some (some 1) := by decide +kernel
    obtain ⟨u, parked, queue⟩ := Option.map_eq_some_iff.mp waits
    obtain ⟨s, ran, owned⟩ := Option.map_eq_some_iff.mp takes
    exact ⟨u, s, parked, queue, ran, owned⟩
end State
end Limen.BlockingLimiter
