import Limen.BlockingLimiter.Steps
import Limen.WaitingLine

/-! The order of service of `BlockingLimiter`, over any delegate. The journal of a run says
who was pushed on the queue, who was handed a slot and who timed out, in the order of the
sections under `mu_`. -/
namespace Limen.BlockingLimiter
open Transition WaitingLine
variable {Ctx δ : Type} {d : Delegate Ctx δ} {discipline : Discipline}

/-- The waiters that `Unblock` hands a slot, in the order in which it does. -/
def handedOver (d : Delegate Ctx δ) (now : Nat → Int) : List Nat → State Ctx δ → List Nat
  | [], _ => []
  | w :: rest, s =>
    match s.requests[w]? with
    | none => []
    | some r =>
      match d.tryAcquire s.delegate r.context (now rest.length) with
      | (_, none) => []
      | (delegate, some slot) => w :: handedOver d now rest (s.handOff w rest delegate slot)

/-- What the next step of call `i` does to the queue. -/
def Phase.turns (d : Delegate Ctx δ) (discipline : Discipline) (i : Nat) (s : State Ctx δ)
    (input : Input) : Phase → List (Turn Nat)
  | .parking => if (discipline.park i s.queue).isSome then [.pushed i] else []
  | .awake waiter => if waiter.slot.isNone then [.timedOut i] else []
  | .unblocking _ _ => (handedOver d input.now s.queue s).map .handed
  | _ => []

namespace State
variable {s t : State Ctx δ} {e : Event Ctx}

def turns (d : Delegate Ctx δ) (discipline : Discipline) (s : State Ctx δ) (e : Event Ctx)
    (_ : State Ctx δ) : List (Turn Nat) :=
  match e with
  | .advance i input =>
    match s.requests[i]? with
    | some r => r.phase.turns d discipline i s input
    | none => []
  | _ => []

def journal (d : Delegate Ctx δ) (discipline : Discipline) (delegate : δ) (es : List (Event Ctx)) :
    List (Turn Nat) :=
  observe (step d discipline) (turns d discipline) (start delegate) es

/-- `Unblock` takes from the queue the waiters it hands a slot, and they are in front. -/
theorem unblock_queue (now : Nat → Int) {queue : List Nat} (same : s.queue = queue) :
    queue = handedOver d now queue s ++ (unblock d now queue s).queue := by
  induction queue generalizing s with
  | nil => exact same.symm
  | cons w rest ih =>
    rw [unblock, handedOver]
    cases s.requests[w]? with
    | none => exact same.symm
    | some r =>
      dsimp only
      rcases d.tryAcquire s.delegate r.context (now rest.length) with ⟨delegate, _ | slot⟩
      · exact same.symm
      · exact congrArg (w :: ·) (ih (s := s.handOff w rest delegate slot) rfl)

/-- A step leaves the queue alone, or it pushes a call that has not been parked, lets one
time out, or serves the front. -/
theorem turns_cases (valid : s.Valid) (stepped : s.step d discipline e = some t) :
    (turns d discipline s e t = [] ∧ t.queue = s.queue) ∨
      (∃ i input r, e = .advance i input ∧ s.requests[i]? = some r ∧ r.phase = .parking ∧
        turns d discipline s e t = [.pushed i] ∧ discipline.park i s.queue = some t.queue ∧
        t.requests = s.requests.modify i (.moveTo (.waiting {}))) ∨
      (∃ i input r waiter, e = .advance i input ∧ s.requests[i]? = some r ∧
        r.phase = .awake waiter ∧ waiter.slot = none ∧ turns d discipline s e t = [.timedOut i] ∧
        t.queue = discipline.withdraw i s.queue) ∨
      ∃ served : List Nat,
        turns d discipline s e t = served.map .handed ∧ s.queue = served ++ t.queue := by
  cases e with
  | tryAcquire context =>
    cases stepped
    exact .inl ⟨rfl, rfl⟩
  | setLimit value =>
    cases stepped
    exact .inl ⟨rfl, rfl⟩
  | guard op =>
    rcases step_guard valid stepped with ⟨heap, rfl, _⟩ | ⟨heap, call, r, _, _, _, _, _, rfl, _⟩
    · exact .inl ⟨rfl, rfl⟩
    · exact .inl ⟨rfl, rfl⟩
  | advance i input =>
    obtain ⟨r, found, ⟨admission, call, atUnblock, rfl⟩ |
      ⟨shared, next, made, heap, moved, _, rfl⟩⟩ := step_advance stepped
    · refine .inr (.inr (.inr ⟨handedOver d input.now s.queue s, ?_, unblock_queue _ rfl⟩))
      simp only [turns, found, atUnblock, Phase.turns]
    · simp only [turns, found]
      generalize phase : r.phase = point at moved
      cases moved with
      | turnedAway full => exact .inl ⟨by simp [Phase.turns, full], rfl⟩
      | parked parks =>
        exact .inr (.inl ⟨i, input, r, rfl, found, phase, by simp [Phase.turns, parks], parks, rfl⟩)
      | delivered slot => exact .inl ⟨by simp [Phase.turns, slot], rfl⟩
      | timedOut empty =>
        exact .inr (.inr (.inl ⟨i, input, r, _, rfl, found, phase, empty,
          by simp [Phase.turns, empty], rfl⟩))
      | _ => exact .inl ⟨rfl, rfl⟩

/-- A hand-off is one of `Unblock`, and all that the step enters before it are hand-offs to
those who stood in front. -/
theorem turns_handed (valid : s.Valid) (stepped : s.step d discipline e = some t)
    {first rest : List (Turn Nat)} {b : Nat}
    (seen : turns d discipline s e t = first ++ .handed b :: rest) :
    ∃ before after, first = before.map .handed ∧ s.queue = before ++ b :: after ++ t.queue := by
  rcases turns_cases valid stepped with ⟨none, _⟩ | ⟨_, _, _, _, _, _, pushed, _⟩ |
    ⟨_, _, _, _, _, _, _, _, left, _⟩ | ⟨served, handed, queue⟩
  · simp [none] at seen
  · rw [pushed] at seen
    rcases first with _ | ⟨_, _ | _⟩ <;> simp at seen
  · rw [left] at seen
    rcases first with _ | ⟨_, _ | _⟩ <;> simp at seen
  · rw [handed] at seen
    obtain ⟨before, later, rfl, rfl, same⟩ := List.map_eq_append_iff.mp seen
    obtain ⟨_, after, rfl, ⟨⟩, _⟩ := List.map_eq_cons_iff.mp same
    exact ⟨before, after, rfl, queue⟩
end State

/-- The queue in order of arrival. -/
def Discipline.arrivals (queue : List Nat) : Discipline → List Nat
  | .fifo => queue
  | .lifo _ => queue.reverse

namespace Discipline

theorem arrivals_park {i : Nat} {queue queue' : List Nat}
    (parked : park i queue discipline = some queue') :
    discipline.arrivals queue' = discipline.arrivals queue ++ [i] := by
  cases discipline with
  | fifo =>
    cases parked
    rfl
  | lifo backlogSize =>
    simp only [park] at parked
    split at parked
    · contradiction
    · cases parked
      exact List.reverse_cons

theorem erase_eq_filter {queue : List Nat} (nodup : queue.Nodup) (i : Nat) :
    queue.erase i = queue.filter fun j => j ≠ i := by
  rw [nodup.erase_eq_filter]
  apply List.filter_congr
  intro j _
  by_cases here : j = i <;> simp [here]

theorem withdraw_eq_filter {queue : List Nat} (nodup : queue.Nodup) (i : Nat) :
    withdraw i queue discipline = queue.filter fun j => j ≠ i := by
  cases discipline with
  | fifo => exact erase_eq_filter nodup i
  | lifo backlogSize =>
    rw [withdraw, erase_eq_filter (List.nodup_reverse.mpr nodup), List.filter_reverse,
      List.reverse_reverse]

theorem arrivals_withdraw {queue : List Nat} (nodup : queue.Nodup) (i : Nat) :
    discipline.arrivals (withdraw i queue discipline) =
      (discipline.arrivals queue).filter fun j => j ≠ i := by
  rw [withdraw_eq_filter nodup]
  cases discipline with
  | fifo => rfl
  | lifo backlogSize => rw [arrivals, arrivals, List.filter_reverse]

theorem arrivals_served {served rest : List Nat} (nodup : (served ++ rest).Nodup) :
    (discipline.arrivals (served ++ rest)).filter (fun i => i ∉ served) =
      discipline.arrivals rest := by
  cases discipline with
  | fifo => exact filter_served nodup
  | lifo backlogSize =>
    rw [arrivals, arrivals, List.filter_reverse, filter_served nodup]
end Discipline

/-- The call has not come to the queue. -/
def Phase.before : Phase → Bool
  | .trying | .parking => true
  | _ => false

theorem Moves.passed {i : Nat} {context : Ctx} {s s' : Shared δ} {input : Input}
    {phase next : Phase} {made : Option (Slot Unit)}
    (moved : Moves d discipline i context s input phase s' next made)
    (passed : phase.before = false) : next.before = false := by
  cases moved with
  | rejected => contradiction
  | _ => rfl

namespace State
variable {s t : State Ctx δ} {e : Event Ctx} {entries : List (Turn Nat)}

theorem passed_step {i : Nat} {r : Request Ctx} (valid : s.Valid) (found : s.requests[i]? = some r)
    (passed : r.phase.before = false) (stepped : s.step d discipline e = some t) :
    ∃ r', t.requests[i]? = some r' ∧ r'.phase.before = false := by
  refine phase_step (Q := fun phase => phase.before = false) ?_ ?_ ?_ ?_ valid found passed stepped
  · intro j context shared input phase shared' next made moved passed
    exact moved.passed passed
  · intro phase inner passed
    cases phase <;> first | rfl | exact passed
  · intro ticket admission call _
    rfl
  · intro admission call _
    rfl

/-- The queue is what the journal says it is, and a call comes to it once. -/
structure InLine (discipline : Discipline) (entries : List (Turn Nat)) (s : State Ctx δ) :
    Prop where
  nodup : (pushes entries).Nodup
  line : waiting entries = discipline.arrivals s.queue
  passed : ∀ i, i ∈ pushes entries ∨ Left entries i →
    ∃ r, s.requests[i]? = some r ∧ r.phase.before = false

theorem inLine_step (valid : s.Valid) (inLine : InLine discipline entries s)
    (stepped : s.step d discipline e = some t) :
    InLine discipline (entries ++ turns d discipline s e t) t := by
  have stays (i : Nat) (came : i ∈ pushes entries ∨ Left entries i) :
      ∃ r, t.requests[i]? = some r ∧ r.phase.before = false := by
    obtain ⟨r, found, passed⟩ := inLine.passed i came
    exact passed_step valid found passed stepped
  rcases turns_cases valid stepped with ⟨none, same⟩ |
    ⟨i, input, r, rfl, found, parking, pushed, parked, requests⟩ |
    ⟨i, input, r, waiter, rfl, found, awake, empty, left, withdrawn⟩ | ⟨served, handed, queue⟩
  · rw [none, List.append_nil]
    exact ⟨inLine.nodup, same ▸ inLine.line, stays⟩
  · have absent : ¬ (i ∈ pushes entries ∨ Left entries i) := by
      intro came
      obtain ⟨r', found', passed⟩ := inLine.passed i came
      obtain rfl : r = r' := by simpa [found] using found'
      rw [parking] at passed
      contradiction
    rw [pushed]
    refine ⟨?_, ?_, ?_⟩
    · have fresh : i ∉ pushes entries := fun member => absent (.inl member)
      rw [pushes_append, pushes_pushed]
      exact inLine.nodup.append (List.nodup_singleton i) (by simpa using fresh)
    · rw [waiting_pushed fun left => absent (.inr left), inLine.line,
        Discipline.arrivals_park parked]
    · intro j came
      by_cases here : j = i
      · subst here
        rw [requests]
        exact ⟨_, Pool.getElem?_modify_self _ found, rfl⟩
      · apply stays j
        simpa [left_append, here] using came
  · rw [left]
    refine ⟨by simpa using inLine.nodup, ?_, ?_⟩
    · rw [waiting_timedOut, inLine.line, withdrawn, Discipline.arrivals_withdraw valid.nodup]
    · intro j came
      by_cases here : j = i
      · subst here
        exact passed_step valid found (by rw [awake]; rfl) stepped
      · apply stays j
        simpa [left_append, here] using came
  · rw [handed]
    refine ⟨by simpa using inLine.nodup, ?_, ?_⟩
    · rw [waiting_handed, inLine.line, queue]
      exact Discipline.arrivals_served (queue ▸ valid.nodup)
    · intro j came
      by_cases member : j ∈ served
      · obtain ⟨r, waiter, found, waits, _⟩ := valid.queued j (by simp [queue, member])
        refine passed_step valid found ?_ stepped
        cases phase : r.phase <;> simp [phase, Phase.waiter?, Phase.before] at waits ⊢
      · apply stays j
        simpa [left_append, member] using came

theorem run_inLine {delegate : δ} {es : List (Event Ctx)}
    (ran : run (step d discipline) (start delegate) es = some s) :
    InLine discipline (journal d discipline delegate es) s := by
  refine history (P := fun es s => InLine discipline (journal d discipline delegate es) s) ?_ ?_ ran
  · refine ⟨List.nodup_nil, ?_, ?_⟩
    · cases discipline <;> rfl
    · intro i came
      simp [journal, observe, pushes, Left] at came
  · intro es s e t before inLine stepped
    rw [journal, observe_concat before stepped]
    exact inLine_step (run_valid before) inLine stepped

/-- A caller that has woken up without a slot is still on the queue. -/
def Waits (s : State Ctx δ) : Prop :=
  ∀ (i : Nat) r waiter, s.requests[i]? = some r → r.phase.waiter? = some waiter →
    waiter.slot = none → i ∈ s.queue

theorem waits_advance {i : Nat} {input : Input} {r : Request Ctx} {shared : Shared δ}
    {next : Phase} {made : Option (Slot Unit)} {heap : Heap Unit} (valid : s.Valid) (waits : s.Waits)
    (found : s.requests[i]? = some r)
    (moved : Moves d discipline i r.context s.toShared input r.phase shared next made) :
    Waits { s with toShared := shared, requests := s.requests.modify i (.moveTo next), heap } := by
  intro j r' waiter' found' waits' empty
  rcases Pool.getElem?_modify_cases found found' with ⟨rfl, rfl⟩ | ⟨other, old⟩
  · have atNext : next.waiter? = some waiter' := waits'
    rcases moved.queue with ⟨_, none, _⟩ | ⟨_, _, parked⟩ | ⟨waiter, before, after, same⟩ |
      ⟨_, _, _, _, none, _⟩ | ⟨_, _, _, refused, _⟩
    · rw [none] at atNext
      contradiction
    · exact (Discipline.mem_park parked j).mpr (.inl rfl)
    · obtain rfl : waiter = waiter' := by simpa [after] using atNext
      exact same ▸ waits j r waiter found before empty
    · rw [none] at atNext
      contradiction
    · rw [refused] at atNext
      contradiction
  · have before := waits j r' waiter' old waits' empty
    rcases moved.queue with ⟨_, _, same⟩ | ⟨_, _, parked⟩ | ⟨_, _, _, same⟩ | ⟨_, _, _, _, _, same⟩ |
      ⟨_, _, _, _, withdrawn⟩
    · exact same ▸ before
    · exact (Discipline.mem_park parked j).mpr (.inr before)
    · exact same ▸ before
    · exact same ▸ before
    · exact withdrawn ▸ (Discipline.mem_withdraw valid.nodup i j).mpr ⟨before, other⟩

theorem waits_unblock {now : Nat → Int} (valid : s.Valid) (waits : s.Waits) :
    (unblock d now s.queue s).Waits := by
  refine unblock_valid_invariant (P := Waits) ?_ ?_ valid waits
  · intro s w rest r delegate slot now valid waits queue found _ j r' waiter found' waits' empty
    rcases Pool.getElem?_modify_cases found found' with ⟨rfl, rfl⟩ | ⟨other, old⟩
    · -- The waiter in front has its slot.
      obtain ⟨context, phase⟩ := r
      cases phase <;> simp only [Request.deliver, Request.moveTo, Phase.deliver, Phase.waiter?,
        reduceCtorEq, Option.some.injEq] at waits' <;> rw [← waits'] at empty <;> contradiction
    · have before := waits j r' waiter old waits' empty
      rw [queue] at before
      exact (List.mem_cons.mp before).resolve_left other
  · intro s r delegate now waits _
    exact waits

theorem waits_step (valid : s.Valid) (waits : s.Waits) (stepped : s.step d discipline e = some t) :
    t.Waits := by
  cases e with
  | tryAcquire context =>
    cases stepped
    intro j r waiter found waits' empty
    rcases Pool.getElem?_concat_eq_some.mp found with old | ⟨_, rfl⟩
    · exact waits j r waiter old waits' empty
    · contradiction
  | setLimit value =>
    cases stepped
    exact waits
  | guard op =>
    rcases step_guard valid stepped with
      ⟨heap, rfl, _⟩ | ⟨heap, call, r, ticket, admission, found, _, _, rfl, _⟩
    · exact waits
    · intro j r' waiter found' waits' empty
      rcases Pool.getElem?_modify_cases found found' with ⟨_, rfl⟩ | ⟨_, old⟩
      · contradiction
      · exact waits j r' waiter old waits' empty
  | advance i input =>
    obtain ⟨r, found, ⟨admission, call, atUnblock, rfl⟩ |
      ⟨shared, next, made, heap, moved, _, rfl⟩⟩ := step_advance stepped
    · have after : (unblock d input.now s.queue s).Waits := waits_unblock valid waits
      have kept : (unblock d input.now s.queue s).requests[i]? = some r :=
        unblock_keeps valid found (by rw [atUnblock]; rfl)
      intro j r' waiter found' waits' empty
      rcases Pool.getElem?_modify_cases kept found' with ⟨_, rfl⟩ | ⟨_, old⟩
      · contradiction
      · exact after j r' waiter old waits' empty
    · exact waits_advance valid waits found moved

theorem run_waits {delegate : δ} {es : List (Event Ctx)}
    (ran : run (step d discipline) (start delegate) es = some s) : s.Waits := by
  refine valid_invariant (fun valid waits stepped => waits_step valid waits stepped)
    (start_valid delegate) ran ?_
  intro i r waiter found
  simp [start] at found

theorem handed_in_order {delegate : δ} {es : List (Event Ctx)}
    (ran : run (step d .fifo) (start delegate) es = some s) {before after : List (Turn Nat)}
    {a b : Nat} (split : journal d .fifo delegate es = before ++ .handed b :: after)
    (order : [a, b].Sublist (pushes before)) : Left before a := by
  have seen : observe (step d .fifo) (turns d .fifo) (start delegate) es =
    before ++ .handed b :: after := split
  refine observe_entries
    (P := fun before entry => ∀ b, entry = .handed b → [a, b].Sublist (pushes before) →
      Left before a) ?_ ran seen b rfl order
  rintro es s e t first _ rest ran stepped seen b rfl order
  have inLine : InLine .fifo (journal d .fifo delegate es) s := run_inLine ran
  obtain ⟨before, after, rfl, queue⟩ := turns_handed (run_valid ran) stepped seen
  exact served_in_order inLine.nodup (inLine.line.trans queue) rfl order

theorem step_timedOut {i : Nat} {input : Input} {r : Request Ctx} {waiter : WaiterSlot}
    (valid : s.Valid) (waits : s.Waits) (found : s.requests[i]? = some r)
    (awake : r.phase = .awake waiter) (empty : waiter.slot = none)
    (stepped : s.step d discipline (.advance i input) = some t) :
    i ∈ s.queue ∧ t.queue = discipline.withdraw i s.queue ∧
      t.queue = s.queue.filter fun j => j ≠ i := by
  have withdrawn : t.queue = discipline.withdraw i s.queue := by
    simp only [step, found, Option.bind_eq_bind, Option.bind_some, awake, Phase.advance, empty,
      Heap.construct, Option.some.injEq] at stepped
    rw [← stepped]
  refine ⟨waits i r waiter found (by rw [awake]; rfl) empty, withdrawn, ?_⟩
  rw [withdrawn, Discipline.withdraw_eq_filter valid.nodup]

/-- Over every delegate and in every run: whoever is handed a slot, all who were pushed
before have been handed one or have timed out before; and a timeout takes its own waiter
from the queue and leaves the others in their order. -/
theorem fifo_service (d : Delegate Ctx δ) (delegate : δ) (es : List (Event Ctx))
    (ran : run (step d .fifo) (start delegate) es = some s) :
    (∀ before after a b, journal d .fifo delegate es = before ++ .handed b :: after →
      [a, b].Sublist (pushes before) → .handed a ∈ before ∨ .timedOut a ∈ before) ∧
    ∀ before after i input u v r waiter, es = before ++ .advance i input :: after →
      run (step d .fifo) (start delegate) before = some u →
      u.step d .fifo (.advance i input) = some v → u.requests[i]? = some r →
      r.phase = .awake waiter → waiter.slot = none →
      i ∈ u.queue ∧ v.queue = u.queue.filter fun j => j ≠ i := by
  constructor
  · intro before after a b split order
    exact handed_in_order ran split order
  · intro before after i input u v r waiter _ reached stepped found awake empty
    obtain ⟨member, _, filtered⟩ := step_timedOut (run_valid reached) (run_waits reached) found awake
      empty stepped
    exact ⟨member, filtered⟩

/-- Three callers park behind a full delegate, the first of them times out, and two
completions serve the other two. -/
def threeWaiters : List (Event Unit) :=
  [.tryAcquire (), .advance 0 {}, .advance 0 {}, .advance 0 {},
    .tryAcquire (), .advance 1 {}, .advance 1 {}, .tryAcquire (), .advance 2 {}, .advance 2 {},
    .tryAcquire (), .advance 3 {}, .advance 3 {}, .advance 1 {}, .advance 1 {},
    .guard (.complete 0 .success), .advance 0 {}, .advance 0 {}, .advance 0 {},
    .advance 2 {}, .advance 2 {}, .advance 2 {}, .advance 2 { addr := 1 },
    .guard (.complete 1 .success), .advance 2 {}, .advance 2 {}, .advance 2 {}]

theorem threeWaiters_in_order :
    journal (simpleDelegate fun _ => false) .fifo (initial Unit 1).delegate threeWaiters =
      [.pushed 1, .pushed 2, .pushed 3, .timedOut 1, .handed 2, .handed 3] ∧
    (.handed 2 ∈ [.pushed 1, .pushed 2, .pushed 3, .timedOut 1, Turn.handed 2] ∨
      .timedOut 2 ∈ [.pushed 1, .pushed 2, .pushed 3, .timedOut 1, Turn.handed 2]) := by
  have entries : journal (simpleDelegate fun _ => false) .fifo (initial Unit 1).delegate
      threeWaiters = [.pushed 1, .pushed 2, .pushed 3, .timedOut 1, .handed 2, .handed 3] := by
    decide +kernel
  have ended : (run (step (simpleDelegate fun _ => false) .fifo)
      (start (initial Unit 1).delegate) threeWaiters).isSome := by decide +kernel
  obtain ⟨s, ran⟩ := Option.isSome_iff_exists.mp ended
  exact ⟨entries, (fifo_service _ _ _ ran).1 _ [] 2 3 (by rw [entries]; rfl) (by decide)⟩
end State
end Limen.BlockingLimiter
