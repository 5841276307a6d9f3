import Limen.BlockingLimiter.Steps

/-! The waits with their deadlines. The machine of `BlockingLimiter` lets a wait time out at any
step; here a wait has the deadline that its caller has computed from the clock, and returns without
a notification only when the clock has come to it. -/
namespace Limen.BlockingLimiter
open Transition
variable {Ctx δ : Type}

/-- `kMaxTimeout` of both limiters, in milliseconds. -/
def maxTimeout : Int := 3600000

/-- What a limiter is constructed with beside its delegate. `fixedTimeout` is the timeout where it
does not depend on the context. -/
structure Settings (Ctx : Type) where
  discipline : Discipline
  timeout : Ctx → Int
  fixedTimeout : Option Int

def checkTimeout (setter : String) (timeout : Int) : Except String Unit :=
  if timeout ≤ 0 then .error (setter ++ " must be positive")
  else if maxTimeout < timeout then
    .error (setter ++ " must not exceed " ++ toString maxTimeout ++ " ms (one hour)")
  else .ok ()

/-- `BlockingLimiter::Builder`. -/
structure Builder (δ : Type) where
  delegate : Option δ := none
  timeout : Int := maxTimeout

def Builder.build (b : Builder δ) : Except String (δ × Settings Ctx) :=
  match b.delegate with
  | none => .error "BlockingLimiter::Builder::Delegate() is required"
  | some delegate => do
    checkTimeout "BlockingLimiter::Builder::Timeout()" b.timeout
    return (delegate, ⟨.fifo, fun _ => b.timeout, some b.timeout⟩)

/-- `LifoBlockingLimiter::Builder`. A null function is `none`. -/
structure LifoBuilder (Ctx δ : Type) where
  delegate : Option δ := none
  backlogSize : Int := 100
  timeoutFn : Option (Ctx → Int) := some fun _ => 1000
  fixedTimeout : Option Int := some 1000
  agrees : ∀ timeout, fixedTimeout = some timeout → timeoutFn = some fun _ => timeout := by
    rintro _ ⟨⟩
    rfl

namespace LifoBuilder

/-- `BacklogTimeout` with a duration. -/
def backlogTimeout (b : LifoBuilder Ctx δ) (timeout : Int) : LifoBuilder Ctx δ :=
  { b with
    timeoutFn := some fun _ => timeout, fixedTimeout := some timeout
    agrees := by
      rintro _ ⟨⟩
      rfl }

/-- `BacklogTimeout` with a function. -/
def backlogTimeoutFn (b : LifoBuilder Ctx δ) (fn : Option (Ctx → Int)) : LifoBuilder Ctx δ :=
  { b with timeoutFn := fn, fixedTimeout := none, agrees := nofun }

def build (b : LifoBuilder Ctx δ) : Except String (δ × Settings Ctx) :=
  match b.delegate with
  | none => .error "LifoBlockingLimiter::Builder::Delegate() is required"
  | some delegate =>
    if b.backlogSize < 1 then
      .error ("LifoBlockingLimiter::Builder::BacklogSize() must be positive; got " ++
        toString b.backlogSize)
    else
      match b.timeoutFn with
      | none => .error "LifoBlockingLimiter::Builder::BacklogTimeout() must not be null"
      | some timeoutFn => do
        if let some timeout := b.fixedTimeout then
          checkTimeout "LifoBlockingLimiter::Builder::BacklogTimeout()" timeout
        return (delegate, ⟨.lifo b.backlogSize.toNat, timeoutFn, b.fixedTimeout⟩)
end LifoBuilder

/-- The deadline in nanoseconds. Only `LifoBlockingLimiter` looks at the sign. -/
def Discipline.deadline (timeout now : Int) : Discipline → Int
  | .fifo => now + 1000000 * timeout
  | .lifo _ => if timeout ≤ 0 then now else now + 1000000 * timeout

/-- What a caller has read from the clock: before its wait and, if that is over, at its end. -/
structure Wait where
  began : Int
  deadline : Int
  woken : Option Int := none
  deriving DecidableEq, Repr

structure Clocked (Ctx δ : Type) where
  state : State Ctx δ
  waits : Nat → Option Wait

namespace Clocked

inductive Event (Ctx : Type) where
  | compute (call : Nat) (now : Int)
  | step (e : BlockingLimiter.Event Ctx) (now : Int)

namespace Event

/-- Without the clock. -/
def untimed : Event Ctx → Option (BlockingLimiter.Event Ctx)
  | .compute _ _ => none
  | .step e _ => some e

def reading : Event Ctx → Int
  | .compute _ now | .step _ now => now
end Event

/-- The wait that a step ends, if it ends one. -/
def ends? (s : State Ctx δ) : BlockingLimiter.Event Ctx → Option (Nat × WaiterSlot)
  | .advance i _ =>
    match s.requests[i]? with
    | some ⟨_, .waiting waiter⟩ => some (i, waiter)
    | _ => none
  | _ => none

/-- `WaitForNotificationWithDeadline` returns on a notification or at the deadline. -/
def wake (s : Clocked Ctx δ) (now : Int) : Option (Nat × WaiterSlot) → Option (Nat → Option Wait)
  | none => some s.waits
  | some (i, waiter) =>
    match s.waits i with
    | none => none
    | some wait =>
      if waiter.ready ∨ wait.deadline ≤ now then
        some (Function.update s.waits i (some { wait with woken := some now }))
      else none

def start (delegate : δ) : Clocked Ctx δ := ⟨State.start delegate, fun _ => none⟩

def step (d : Delegate Ctx δ) (settings : Settings Ctx) (s : Clocked Ctx δ) :
    Event Ctx → Option (Clocked Ctx δ)
  | .compute i now =>
    match s.state.requests[i]?, s.waits i with
    | some ⟨context, .waiting _⟩, none =>
      let deadline := settings.discipline.deadline (settings.timeout context) now
      some { s with waits := Function.update s.waits i (some ⟨now, deadline, none⟩) }
    | _, _ => none
  | .step e now => do
    let waits ← s.wake now (ends? s.state e)
    let state ← s.state.step d settings.discipline e
    some ⟨state, waits⟩

end Clocked

/-! ### What `Build` lets through -/

/-- A fixed timeout is positive and at most an hour, and the queue of `BlockingLimiter` has one. -/
structure Settings.Checked (settings : Settings Ctx) : Prop where
  fixed : ∀ timeout, settings.fixedTimeout = some timeout →
    (∀ context, settings.timeout context = timeout) ∧ 0 < timeout ∧ timeout ≤ maxTimeout
  fifo : settings.discipline = .fifo → ∃ timeout, settings.fixedTimeout = some timeout

theorem checkTimeout_ok {setter : String} {timeout : Int}
    (checked : checkTimeout setter timeout = .ok ()) : 0 < timeout ∧ timeout ≤ maxTimeout := by
  rw [checkTimeout] at checked
  split at checked
  · contradiction
  · split at checked
    · contradiction
    · omega

theorem Builder.build_checked {b : Builder δ} {delegate : δ} {settings : Settings Ctx}
    (built : b.build = .ok (delegate, settings)) : settings.Checked := by
  rw [build] at built
  split at built
  · contradiction
  · cases checked : checkTimeout "BlockingLimiter::Builder::Timeout()" b.timeout with
    | error message =>
      rw [checked] at built
      contradiction
    | ok =>
      rw [checked] at built
      cases built
      refine ⟨?_, fun _ => ⟨_, rfl⟩⟩
      rintro _ ⟨⟩
      exact ⟨fun _ => rfl, checkTimeout_ok checked⟩

theorem LifoBuilder.build_checked {b : LifoBuilder Ctx δ} {delegate : δ} {settings : Settings Ctx}
    (built : b.build = .ok (delegate, settings)) : settings.Checked := by
  rw [build] at built
  split at built
  · contradiction
  split at built
  · contradiction
  split at built
  · contradiction
  rename_i timeoutFn given
  cases fixed : b.fixedTimeout with
  | none =>
    simp only [fixed] at built
    cases built
    exact ⟨nofun, nofun⟩
  | some timeout =>
    simp only [fixed] at built
    cases checked : checkTimeout "LifoBlockingLimiter::Builder::BacklogTimeout()" timeout with
    | error message =>
      rw [checked] at built
      contradiction
    | ok =>
      rw [checked] at built
      cases built
      refine ⟨?_, nofun⟩
      rintro _ ⟨⟩
      have constant := b.agrees timeout fixed
      rw [given] at constant
      cases constant
      exact ⟨fun _ => rfl, checkTimeout_ok checked⟩

/-! ### Nobody gives up early -/

section Timed
variable {d : Delegate Ctx δ} {settings : Settings Ctx} {wait : Option Wait} {r : Request Ctx}

def Wait.Computed (settings : Settings Ctx) (context : Ctx) (w : Wait) : Prop :=
  w.deadline = settings.discipline.deadline (settings.timeout context) w.began

/-- The caller has woken up at its deadline or later. -/
def TimedOut (settings : Settings Ctx) (context : Ctx) (wait : Option Wait) : Prop :=
  ∃ w now, wait = some w ∧ w.Computed settings context ∧ w.woken = some now ∧ w.deadline ≤ now

/-- What is known of a call's readings of the clock at each of its program points. -/
def Timed (settings : Settings Ctx) (wait : Option Wait) (r : Request Ctx) : Prop :=
  match r.phase with
  | .trying | .parking => wait = none
  | .waiting waiter =>
    waiter.ready = waiter.slot.isSome ∧ ∀ w, wait = some w → w.Computed settings r.context
  | .awake waiter => waiter.slot = none → TimedOut settings r.context wait
  | .refused => (wait = none ∧ settings.discipline ≠ .fifo) ∨ TimedOut settings r.context wait
  | _ => True

theorem Timed.deliver (timed : Timed settings wait r) (inner : Grant) :
    Timed settings wait (r.deliver inner) := by
  obtain ⟨context, phase⟩ := r
  cases phase with
  | waiting waiter => exact ⟨rfl, timed.2⟩
  | awake waiter => exact fun empty => absurd empty (Option.some_ne_none inner)
  | _ => exact timed

theorem Timed.moves {i : Nat} {shared shared' : Shared δ} {input : Input} {next : Phase}
    {made : Option (Slot Unit)} (timed : Timed settings wait r)
    (moved : Moves d settings.discipline i r.context shared input r.phase shared' next made)
    (staying : ∀ waiter, r.phase ≠ .waiting waiter) : Timed settings wait (r.moveTo next) := by
  obtain ⟨context, phase⟩ := r
  cases moved with
  | rejected => exact timed
  | turnedAway full =>
    refine .inl ⟨timed, fun fifo => ?_⟩
    have full : settings.discipline.park i shared.queue = none := full
    rw [fifo] at full
    contradiction
  | parked =>
    obtain rfl : wait = none := timed
    exact ⟨rfl, nofun⟩
  | woken waiter => exact absurd rfl (staying waiter)
  | timedOut empty => exact .inr (timed empty)
  | _ => trivial

/-- A wait that ends without a slot has not been notified, and so has come to its deadline. -/
theorem Timed.woken {waiter : WaiterSlot} {w : Wait} {now : Int} {context : Ctx}
    (timed : Timed settings (some w) ⟨context, .waiting waiter⟩)
    (due : waiter.ready ∨ w.deadline ≤ now) :
    Timed settings (some { w with woken := some now }) ⟨context, .awake waiter⟩ := by
  obtain ⟨notified, computed⟩ := timed
  intro empty
  refine ⟨_, now, rfl, computed w rfl, rfl, due.resolve_left ?_⟩
  rw [notified, empty]
  decide
end Timed

namespace Clocked
variable {d : Delegate Ctx δ} {settings : Settings Ctx} {s t : Clocked Ctx δ}

theorem ends?_eq_some {u : State Ctx δ} {e : BlockingLimiter.Event Ctx} {i : Nat}
    {waiter : WaiterSlot} (ended : ends? u e = some (i, waiter)) :
    ∃ input context, e = .advance i input ∧
      u.requests[i]? = some ⟨context, .waiting waiter⟩ := by
  cases e with
  | advance j input =>
    simp only [ends?] at ended
    split at ended
    · rename_i context waiting found
      cases ended
      exact ⟨input, context, rfl, found⟩
    · contradiction
  | _ => contradiction

theorem ends?_of_waiting {u : State Ctx δ} {i : Nat} {input : Input} {r : Request Ctx}
    (ended : ends? u (.advance i input) = none) (found : u.requests[i]? = some r)
    (waiter : WaiterSlot) : r.phase ≠ .waiting waiter := by
  obtain ⟨context, phase⟩ := r
  rintro rfl
  simp [ends?, found] at ended

/-- A step either ends no wait, or ends that of its call in time. -/
theorem wake_cases {now : Int} {ended : Option (Nat × WaiterSlot)} {waits : Nat → Option Wait}
    (woken : s.wake now ended = some waits) :
    (ended = none ∧ waits = s.waits) ∨
      ∃ i waiter w, ended = some (i, waiter) ∧ s.waits i = some w ∧
        (waiter.ready ∨ w.deadline ≤ now) ∧
        waits = Function.update s.waits i (some { w with woken := some now }) := by
  cases ended with
  | none =>
    cases woken
    exact .inl ⟨rfl, rfl⟩
  | some ending =>
    obtain ⟨i, waiter⟩ := ending
    simp only [wake] at woken
    split at woken
    · contradiction
    · rename_i w atWait
      split at woken
      · rename_i due
        cases woken
        exact .inr ⟨i, waiter, w, rfl, atWait, due, rfl⟩
      · contradiction

/-- A caller that computes its deadline changes nothing that others see. -/
theorem compute_state {i : Nat} {now : Int} (stepped : s.step d settings (.compute i now) = some t) :
    t.state = s.state := by
  simp only [step] at stepped
  split at stepped
  · cases stepped
    rfl
  · contradiction

theorem step_timed {e : BlockingLimiter.Event Ctx} {now : Int}
    (stepped : s.step d settings (.step e now) = some t) :
    ∃ waits state, s.wake now (ends? s.state e) = some waits ∧
      s.state.step d settings.discipline e = some state ∧ t = ⟨state, waits⟩ := by
  simp only [step, Option.bind_eq_bind, Option.bind_eq_some_iff, Option.some.injEq] at stepped
  obtain ⟨waits, woken, state, moved, same⟩ := stepped
  exact ⟨waits, state, woken, moved, same.symm⟩

section Stays
variable {u v : State Ctx δ} {waits : Nat → Option Wait} {e : BlockingLimiter.Event Ctx}

/-- Where no wait ends, all that is known stays known. -/
theorem timed_step (valid : u.Valid)
    (timed : ∀ (i : Nat) r, u.requests[i]? = some r → Timed settings (waits i) r)
    (known : ∀ i w, waits i = some w → ∃ r, u.requests[i]? = some r)
    (stays : ends? u e = none) (stepped : u.step d settings.discipline e = some v)
    (j : Nat) (r : Request Ctx) (found : v.requests[j]? = some r) :
    Timed settings (waits j) r := by
  cases e with
  | tryAcquire context =>
    cases stepped
    rcases Pool.getElem?_concat_eq_some.mp found with before | ⟨rfl, rfl⟩
    · exact timed j r before
    · cases present : waits u.requests.length with
      | none => exact rfl
      | some w =>
        obtain ⟨r', beyond⟩ := known _ w present
        simp at beyond
  | setLimit value =>
    cases stepped
    exact timed j r found
  | guard op =>
    rcases State.step_guard valid stepped with
      ⟨heap, rfl, _⟩ | ⟨heap, call, r', ticket, admission, found', atHeld, _, rfl, _⟩
    · exact timed j r found
    · rcases Pool.getElem?_modify_cases found' found with ⟨rfl, rfl⟩ | ⟨_, before⟩
      · trivial
      · exact timed j r before
  | advance i input =>
    obtain ⟨r', found', ⟨admission, call, atUnblock, rfl⟩ |
      ⟨shared, next, made, heap, moved, _, rfl⟩⟩ := State.step_advance stepped
    · have handed (k : Nat) (r'' : Request Ctx)
          (there : (State.unblock d input.now u.queue u).requests[k]? = some r'') :
          Timed settings (waits k) r'' := by
        refine State.unblock_invariant (P := fun v => ∀ (k : Nat) r, v.requests[k]? = some r →
          Timed settings (waits k) r) ?_ (fun kept _ _ _ => kept) rfl timed k r'' there
        intro v w rest r₀ delegate slot now kept _ found₀ _ k r₁ found₁
        rcases Pool.getElem?_modify_cases found₀ found₁ with ⟨rfl, rfl⟩ | ⟨_, before⟩
        · exact (kept k r₀ found₀).deliver _
        · exact kept k r₁ before
      have kept : (State.unblock d input.now u.queue u).requests[i]? = some r' :=
        State.unblock_keeps valid found' (by rw [atUnblock]; rfl)
      rcases Pool.getElem?_modify_cases kept found with ⟨rfl, rfl⟩ | ⟨_, before⟩
      · trivial
      · exact handed j r before
    · rcases Pool.getElem?_modify_cases found' found with ⟨rfl, rfl⟩ | ⟨_, before⟩
      · exact (timed j r' found').moves moved (ends?_of_waiting stays found')
      · exact timed j r before

theorem known_step (valid : u.Valid) (stepped : u.step d settings.discipline e = some v) {i : Nat}
    {r : Request Ctx} (found : u.requests[i]? = some r) : ∃ r', v.requests[i]? = some r' := by
  obtain ⟨r', found', _⟩ := State.phase_step (Q := fun _ => True) (fun _ _ => trivial)
    (fun _ _ => trivial) (fun _ _ => trivial) (fun _ => trivial) valid found trivial stepped
  exact ⟨r', found'⟩
end Stays

/-- Whoever is refused after a step was refused before, is turned away when it is about to park,
or has woken up without a slot. -/
theorem refused_step {u v : State Ctx δ} {e : BlockingLimiter.Event Ctx} {i : Nat} {r : Request Ctx}
    (valid : u.Valid) (stepped : u.step d settings.discipline e = some v)
    (found : v.requests[i]? = some r) (refused : r.phase = .refused) :
    ∃ r', u.requests[i]? = some r' ∧ (r'.phase = .refused ∨
      (r'.phase = .parking ∧ settings.discipline.park i u.queue = none ∧
        ∃ input, e = .advance i input) ∨
      ∃ waiter, r'.phase = .awake waiter ∧ waiter.slot = none) := by
  cases e with
  | tryAcquire context =>
    cases stepped
    rcases Pool.getElem?_concat_eq_some.mp found with before | ⟨_, rfl⟩
    · exact ⟨r, before, .inl refused⟩
    · contradiction
  | setLimit value =>
    cases stepped
    exact ⟨r, found, .inl refused⟩
  | guard op =>
    rcases State.step_guard valid stepped with
      ⟨heap, rfl, _⟩ | ⟨heap, call, r', ticket, admission, found', _, _, rfl, _⟩
    · exact ⟨r, found, .inl refused⟩
    · rcases Pool.getElem?_modify_cases found' found with ⟨rfl, rfl⟩ | ⟨_, before⟩
      · contradiction
      · exact ⟨r, before, .inl refused⟩
  | advance j input =>
    obtain ⟨r', found', ⟨admission, call, atUnblock, rfl⟩ |
      ⟨shared, next, made, heap, moved, _, rfl⟩⟩ := State.step_advance stepped
    · have kept : (State.unblock d input.now u.queue u).requests[j]? = some r' :=
        State.unblock_keeps valid found' (by rw [atUnblock]; rfl)
      rcases Pool.getElem?_modify_cases kept found with ⟨rfl, rfl⟩ | ⟨_, before⟩
      · contradiction
      · obtain ⟨r'', earlier, same⟩ := State.unblock_origin (Q := (· = .refused))
          (fun {phase} inner same => by cases phase <;> first | rfl | contradiction) before refused
        exact ⟨r'', earlier, .inl same⟩
    · rcases Pool.getElem?_modify_cases found' found with ⟨rfl, rfl⟩ | ⟨_, before⟩
      · obtain ⟨context, phase⟩ := r'
        refine ⟨_, found', .inr ?_⟩
        cases moved with
        | turnedAway full => exact .inl ⟨rfl, full, input, rfl⟩
        | timedOut empty => exact .inr ⟨_, rfl, empty⟩
        | _ => contradiction
      · exact ⟨r, before, .inl refused⟩

structure Sound (settings : Settings Ctx) (s : Clocked Ctx δ) : Prop where
  valid : s.state.Valid
  timed : ∀ (i : Nat) r, s.state.requests[i]? = some r → Timed settings (s.waits i) r
  known : ∀ i w, s.waits i = some w → ∃ r, s.state.requests[i]? = some r

theorem sound_compute {i : Nat} {now : Int} (sound : s.Sound settings)
    (stepped : s.step d settings (.compute i now) = some t) : t.Sound settings := by
  simp only [step] at stepped
  split at stepped
  · rename_i context waiter found absent
    cases stepped
    refine ⟨sound.valid, ?_, ?_⟩
    · intro j r found'
      dsimp only at found' ⊢
      by_cases here : j = i
      · subst here
        obtain rfl := Option.some.inj (found.symm.trans found')
        rw [Function.update_self]
        refine ⟨(sound.timed j _ found).1, ?_⟩
        rintro w ⟨⟩
        rfl
      · rw [Function.update_of_ne here]
        exact sound.timed j r found'
    · intro j w present
      dsimp only at present ⊢
      by_cases here : j = i
      · exact ⟨_, here ▸ found⟩
      · rw [Function.update_of_ne here] at present
        exact sound.known j w present
  · contradiction

theorem sound_wake {i : Nat} {input : Input} {context : Ctx} {waiter : WaiterSlot} {w : Wait}
    {now : Int} {state : State Ctx δ} (sound : s.Sound settings)
    (found : s.state.requests[i]? = some ⟨context, .waiting waiter⟩)
    (present : s.waits i = some w) (due : waiter.ready ∨ w.deadline ≤ now)
    (stepped : s.state.step d settings.discipline (.advance i input) = some state) :
    Sound settings ⟨state, Function.update s.waits i (some { w with woken := some now })⟩ := by
  have valid := State.valid_step sound.valid stepped
  obtain ⟨r, found', ⟨_, _, atUnblock, _⟩ | ⟨shared, next, made, heap, moved, _, rfl⟩⟩ :=
    State.step_advance stepped
  · obtain rfl := Option.some.inj (found.symm.trans found')
    contradiction
  · obtain rfl := Option.some.inj (found.symm.trans found')
    cases moved with
    | woken =>
      refine ⟨valid, ?_, ?_⟩
      · intro j r there
        rcases Pool.getElem?_modify_cases found there with ⟨rfl, rfl⟩ | ⟨elsewhere, before⟩
        · have timed := sound.timed j _ found
          rw [present] at timed
          dsimp only
          rw [Function.update_self]
          exact timed.woken due
        · dsimp only
          rw [Function.update_of_ne elsewhere]
          exact sound.timed j r before
      · intro j w' present'
        dsimp only at present'
        by_cases here : j = i
        · exact known_step sound.valid stepped (here ▸ found)
        · rw [Function.update_of_ne here] at present'
          obtain ⟨r, there⟩ := sound.known j w' present'
          exact known_step sound.valid stepped there

theorem sound_step {e : Event Ctx} (sound : s.Sound settings)
    (stepped : s.step d settings e = some t) : t.Sound settings := by
  cases e with
  | compute i now => exact sound_compute sound stepped
  | step e now =>
    obtain ⟨waits, state, woken, moved, rfl⟩ := step_timed stepped
    rcases wake_cases woken with ⟨stays, rfl⟩ | ⟨i, waiter, w, ended, present, due, rfl⟩
    · refine ⟨State.valid_step sound.valid moved,
        timed_step sound.valid sound.timed sound.known stays moved, ?_⟩
      intro j w present
      obtain ⟨r, found⟩ := sound.known j w present
      exact known_step sound.valid moved found
    · obtain ⟨input, context, rfl, found⟩ := ends?_eq_some ended
      exact sound_wake sound found present due moved

theorem run_sound {delegate : δ} {es : List (Event Ctx)}
    (ran : run (step d settings) (start delegate) es = some s) : s.Sound settings := by
  refine invariant sound_step ran ⟨State.start_valid delegate, ?_, ?_⟩
  · intro i r found
    simp [start, State.start] at found
  · rintro i w ⟨⟩

/-- When the call was about to park, the backlog was full. -/
def TurnedAway (d : Delegate Ctx δ) (settings : Settings Ctx) (delegate : δ)
    (es : List (Event Ctx)) (i : Nat) : Prop :=
  ∃ backlogSize before input now after u r, settings.discipline = .lifo backlogSize ∧
    es = before ++ .step (.advance i input) now :: after ∧
    run (step d settings) (start delegate) before = some u ∧ u.state.requests[i]? = some r ∧
    r.phase = .parking ∧ backlogSize ≤ u.state.queue.length

theorem TurnedAway.append {delegate : δ} {es : List (Event Ctx)} {i : Nat}
    (turnedAway : TurnedAway d settings delegate es i) (more : List (Event Ctx)) :
    TurnedAway d settings delegate (es ++ more) i := by
  obtain ⟨backlogSize, before, input, now, after, u, r, lifo, rfl, reached⟩ := turnedAway
  exact ⟨backlogSize, before, input, now, after ++ more, u, r, lifo, by simp, reached⟩

/-- A deadline is never forgotten. -/
theorem waits_none {e : Event Ctx} {i : Nat} (stepped : s.step d settings e = some t)
    (never : t.waits i = none) : s.waits i = none := by
  cases e with
  | compute j now =>
    simp only [step] at stepped
    split at stepped
    · cases stepped
      by_cases here : i = j
      · simp [here] at never
      · simpa [Function.update_of_ne here] using never
    · contradiction
  | step e now =>
    obtain ⟨waits, state, woken, moved, rfl⟩ := step_timed stepped
    rcases wake_cases woken with ⟨_, rfl⟩ | ⟨j, waiter, w, _, present, _, rfl⟩
    · exact never
    · by_cases here : i = j
      · simp [here] at never
      · simpa [Function.update_of_ne here] using never

/-- A caller that is refused without ever having waited found the backlog full. -/
theorem run_turnedAway {delegate : δ} {es : List (Event Ctx)}
    (ran : run (step d settings) (start delegate) es = some s) (i : Nat) (r : Request Ctx)
    (found : s.state.requests[i]? = some r) (refused : r.phase = .refused)
    (never : s.waits i = none) : TurnedAway d settings delegate es i := by
  refine history (P := fun es (s : Clocked Ctx δ) => ∀ (i : Nat) r,
    s.state.requests[i]? = some r → r.phase = .refused → s.waits i = none →
      TurnedAway d settings delegate es i) ?_ ?_ ran i r found refused never
  · intro i r found
    simp [start, State.start] at found
  · intro es s e t reached earlier stepped i r found refused never
    have before := waits_none stepped never
    have sound := run_sound reached
    cases e with
    | compute j now =>
      rw [compute_state stepped] at found
      exact (earlier i r found refused before).append _
    | step e now =>
      obtain ⟨waits, state, woken, moved, rfl⟩ := step_timed stepped
      obtain ⟨r', found', same | ⟨parking, full, input, rfl⟩ | ⟨waiter, awake, empty⟩⟩ :=
        refused_step sound.valid moved found refused
      · exact (earlier i r' found' same before).append _
      · cases discipline : settings.discipline with
        | fifo =>
          rw [discipline] at full
          contradiction
        | lifo backlogSize =>
          rw [discipline] at full
          refine ⟨backlogSize, es, input, now, [], s, r', discipline, rfl, reached, found',
            parking, ?_⟩
          by_contra space
          simp [Discipline.park, space] at full
      · have timed := sound.timed i r' found'
        simp only [Timed, awake] at timed
        obtain ⟨w, now, present, _⟩ := timed empty
        rw [before] at present
        contradiction

/-! ### The clock can be left out -/

/-- Without its clock, a run is one of the machine in which a wait may end at any step. -/
theorem run_untimed {es : List (Event Ctx)} (ran : run (step d settings) s es = some t) :
    run (State.step d settings.discipline) s.state (es.filterMap Event.untimed) =
      some t.state := by
  induction es generalizing s with
  | nil =>
    cases ran
    rfl
  | cons e es ih =>
    obtain ⟨u, stepped, rest⟩ := run_cons_eq_some.mp ran
    cases e with
    | compute i now =>
      rw [← compute_state stepped]
      exact ih rest
    | step e now =>
      obtain ⟨_, state, _, moved, rfl⟩ := step_timed stepped
      exact run_cons_eq_some.mpr ⟨state, moved, ih rest⟩

theorem step_eq_some {u v : State Ctx δ} {waits waits' : Nat → Option Wait}
    {e : BlockingLimiter.Event Ctx} {now : Int}
    (woken : wake ⟨u, waits⟩ now (ends? u e) = some waits')
    (stepped : u.step d settings.discipline e = some v) :
    step d settings ⟨u, waits⟩ (.step e now) = some ⟨v, waits'⟩ := by
  simp [step, woken, stepped]

/-- Readings no earlier than `first` in order, and `last` no earlier than any of them. -/
structure Ordered (first last : Int) (es : List (Event Ctx)) : Prop where
  sorted : (es.map Event.reading).Pairwise (· ≤ ·)
  within : ∀ e ∈ es, first ≤ e.reading ∧ e.reading ≤ last
  onward : first ≤ last

theorem Ordered.append {first middle last : Int} {es more : List (Event Ctx)}
    (before : Ordered first middle es) (after : Ordered middle last more) :
    Ordered first last (es ++ more) := by
  refine ⟨?_, ?_, before.onward.trans after.onward⟩
  · rw [List.map_append, List.pairwise_append]
    refine ⟨before.sorted, after.sorted, ?_⟩
    intro a earlier b later
    obtain ⟨e, there, rfl⟩ := List.mem_map.mp earlier
    obtain ⟨e', there', rfl⟩ := List.mem_map.mp later
    exact (before.within e there).2.trans (after.within e' there').1
  · intro e there
    rcases List.mem_append.mp there with early | late
    · exact ⟨(before.within e early).1, (before.within e early).2.trans after.onward⟩
    · exact ⟨before.onward.trans (after.within e late).1, (after.within e late).2⟩

theorem ordered_single {first last : Int} {e : Event Ctx} (late : first ≤ e.reading)
    (same : e.reading = last) : Ordered first last [e] := by
  refine ⟨by simp, ?_, same ▸ late⟩
  intro other there
  obtain rfl := List.mem_singleton.mp there
  exact ⟨late, same.le⟩

/-- A caller that waits has a deadline, or can compute it now. -/
theorem exists_deadline {i : Nat} {context : Ctx} {waiter : WaiterSlot} (first : Int)
    (found : s.state.requests[i]? = some ⟨context, .waiting waiter⟩) :
    ∃ es t w, run (step d settings) s es = some t ∧ t.state = s.state ∧ t.waits i = some w ∧
      es.filterMap Event.untimed = [] ∧ Ordered first first es := by
  cases present : s.waits i with
  | some w => exact ⟨[], s, w, rfl, rfl, present, rfl, ⟨.nil, nofun, le_rfl⟩⟩
  | none =>
    let w : Wait :=
      { began := first
        deadline := settings.discipline.deadline (settings.timeout context) first }
    refine ⟨[.compute i first], ⟨s.state, Function.update s.waits i (some w)⟩, w, ?_, rfl,
      Function.update_self .., rfl, ordered_single le_rfl rfl⟩
    rw [run_single]
    simp only [step, found, present]
    rfl

/-- Every step of the machine can be made at some time. -/
theorem exists_step {v : State Ctx δ} {e : BlockingLimiter.Event Ctx} (first : Int)
    (stepped : s.state.step d settings.discipline e = some v) :
    ∃ es t last, run (step d settings) s es = some t ∧ t.state = v ∧
      es.filterMap Event.untimed = [e] ∧ Ordered first last es := by
  cases ended : ends? s.state e with
  | none =>
    refine ⟨[.step e first], ⟨v, s.waits⟩, first, ?_, rfl, rfl, ordered_single le_rfl rfl⟩
    rw [run_single]
    exact step_eq_some (by rw [ended]; rfl) stepped
  | some ending =>
    obtain ⟨i, waiter⟩ := ending
    obtain ⟨input, context, rfl, found⟩ := ends?_eq_some ended
    have waiting : ∃ es t w, run (step d settings) s es = some t ∧ t.state = s.state ∧
        t.waits i = some w ∧ es.filterMap Event.untimed = [] ∧ Ordered first first es :=
      exists_deadline first found
    obtain ⟨es, ⟨u, waits⟩, w, ran, same, present, silent, ordered⟩ := waiting
    obtain rfl : u = s.state := same
    replace present : waits i = some w := present
    let last := max first w.deadline
    let waits' := Function.update waits i (some { w with woken := some last })
    have woken : wake ⟨s.state, waits⟩ last (ends? s.state (.advance i input)) = some waits' := by
      simp only [ended, wake, present]
      exact if_pos (.inr (le_max_right _ _))
    refine ⟨es ++ [.step (.advance i input) last], ⟨v, waits'⟩, last, ?_, rfl, ?_,
      ordered.append (ordered_single (le_max_left _ _) rfl)⟩
    · refine run_append_eq_some.mpr ⟨_, ran, ?_⟩
      rw [run_single]
      exact step_eq_some woken stepped
    · rw [List.filterMap_append, silent]
      rfl

theorem exists_run {delegate : δ} {es : List (BlockingLimiter.Event Ctx)} {u : State Ctx δ}
    (ran : run (State.step d settings.discipline) (State.start delegate) es = some u) :
    ∃ timed s last, run (step d settings) (start delegate) timed = some s ∧ s.state = u ∧
      timed.filterMap Event.untimed = es ∧ Ordered 0 last timed := by
  induction es using List.reverseRecOn generalizing u with
  | nil =>
    cases ran
    exact ⟨[], start delegate, 0, rfl, rfl, rfl, ⟨.nil, nofun, le_rfl⟩⟩
  | append_singleton es e ih =>
    obtain ⟨v, before, last⟩ := run_append_eq_some.mp ran
    obtain ⟨timed, s, middle, reached, rfl, erased, ordered⟩ := ih before
    rw [run_single] at last
    obtain ⟨more, t, late, onward, state, one, ordered'⟩ := exists_step middle last
    refine ⟨timed ++ more, t, late, run_append_eq_some.mpr ⟨s, reached, onward⟩, state, ?_,
      ordered.append ordered'⟩
    rw [List.filterMap_append, erased, one]

/-- What a builder makes with a timeout of five milliseconds. -/
def impatient : Settings Unit := ⟨.fifo, fun _ => 5, some 5⟩

/-- A caller reads the clock at 100, before it waits, and wakes up when its time has run out. -/
def givesUp : List (Event Unit) :=
  [.step (.tryAcquire ()) 0, .step (.advance 0 {}) 0, .step (.advance 0 {}) 0, .compute 0 100,
    .step (.advance 0 {}) 5000100, .step (.advance 0 {}) 5000107]

/-- The machine without a clock is exact: its runs are those that deadlines allow, no more than
with a clock that never goes back, and no less whatever the clock does. -/
theorem clock_refines (d : Delegate Ctx δ) (settings : Settings Ctx) (delegate : δ) :
    (∀ timed s, run (step d settings) (start delegate) timed = some s →
      run (State.step d settings.discipline) (State.start delegate)
        (timed.filterMap Event.untimed) = some s.state) ∧
    ∀ es u, run (State.step d settings.discipline) (State.start delegate) es = some u →
      ∃ timed s, run (step d settings) (start delegate) timed = some s ∧ s.state = u ∧
        timed.filterMap Event.untimed = es ∧
        (timed.map Event.reading).Pairwise (· ≤ ·) := by
  refine ⟨fun timed s ran => run_untimed ran, fun es u ran => ?_⟩
  obtain ⟨timed, s, _, reached, state, erased, ordered⟩ := exists_run ran
  exact ⟨timed, s, reached, state, erased, ordered.sorted⟩

theorem givesUp_refines : ∃ u,
    run (State.step (simpleDelegate fun _ => false) .fifo) (State.initial Unit 0)
      (givesUp.filterMap Event.untimed) = some u ∧ u.requests.map Request.phase = [.refused] := by
  have ended : (run (step (simpleDelegate fun _ => false) impatient)
      (start (State.initial Unit 0).delegate) givesUp).map
        (fun s => s.state.requests.map Request.phase) = some [.refused] := by decide +kernel
  obtain ⟨s, ran, phases⟩ := Option.map_eq_some_iff.mp ended
  exact ⟨s.state, (clock_refines _ impatient _).1 givesUp s ran, phases⟩

/-- Of a limiter that either builder has made: a timeout that no function gives is positive and at
most an hour, and a caller is refused only if it found the backlog full when it was about to park,
or at the end of its timeout. -/
theorem refused_after_deadline {delegate : δ}
    (built : (∃ b : Builder δ, b.build = .ok (delegate, settings)) ∨
      ∃ b : LifoBuilder Ctx δ, b.build = .ok (delegate, settings)) :
    (∀ timeout, settings.fixedTimeout = some timeout →
      (∀ context, settings.timeout context = timeout) ∧ 0 < timeout ∧ timeout ≤ maxTimeout) ∧
    ∀ es s, run (step d settings) (start delegate) es = some s →
      ∀ (i : Nat) r, s.state.requests[i]? = some r → r.phase = .refused →
        TurnedAway d settings delegate es i ∨
          ∃ w now, s.waits i = some w ∧ w.woken = some now ∧ w.began ≤ now ∧
            w.began + 1000000 * settings.timeout r.context ≤ now := by
  have checked : settings.Checked := by
    rcases built with ⟨b, built⟩ | ⟨b, built⟩
    · exact b.build_checked built
    · exact b.build_checked built
  refine ⟨checked.fixed, fun es s ran i r found refused => ?_⟩
  have timed := (run_sound ran).timed i r found
  simp only [Timed, refused] at timed
  rcases timed with ⟨never, _⟩ | ⟨w, now, present, computed, woken, late⟩
  · exact .inl (run_turnedAway ran i r found refused never)
  · refine .inr ⟨w, now, present, woken, ?_⟩
    rw [Wait.Computed] at computed
    cases discipline : settings.discipline with
    | fifo =>
      obtain ⟨timeout, given⟩ := checked.fifo discipline
      obtain ⟨constant, positive, _⟩ := checked.fixed timeout given
      have same := constant r.context
      simp only [discipline, Discipline.deadline] at computed
      omega
    | lifo backlogSize =>
      simp only [discipline, Discipline.deadline] at computed
      split at computed <;> omega

/-- Room for one, and the default timeout of a second. -/
def cramped : Settings Unit := ⟨.lifo 1, fun _ => 1000, some 1000⟩

/-- One caller waits, and the next is turned away. -/
def findsFull : List (Event Unit) :=
  [.step (.tryAcquire ()) 0, .step (.advance 0 {}) 0, .step (.advance 0 {}) 0,
    .step (.tryAcquire ()) 0, .step (.advance 1 {}) 0, .step (.advance 1 {}) 0]

theorem givesUp_in_time :
    (∃ s w now, run (step (simpleDelegate fun _ => false) impatient)
        (start (State.initial Unit 0).delegate) givesUp = some s ∧
      s.waits 0 = some w ∧ w.woken = some now ∧ w.began + 1000000 * 5 ≤ now) ∧
    TurnedAway (simpleDelegate fun _ => false) cramped (State.initial Unit 0).delegate findsFull
      1 := by
  constructor
  · have built : ({ delegate := some (State.initial Unit 0).delegate, timeout := 5 } :
        Builder (AbstractLimiter.Counters Unit)).build =
          .ok ((State.initial Unit 0).delegate, impatient) := rfl
    have ended : (run (step (simpleDelegate fun _ => false) impatient)
        (start (State.initial Unit 0).delegate) givesUp).map
          (fun s => s.state.requests[0]?.map Request.phase) = some (some .refused) := by
      decide +kernel
    obtain ⟨s, ran, phase⟩ := Option.map_eq_some_iff.mp ended
    obtain ⟨r, found, refused⟩ := Option.map_eq_some_iff.mp phase
    rcases (refused_after_deadline (.inl ⟨_, built⟩)).2 givesUp s ran 0 r found refused with
      ⟨_, _, _, _, _, _, _, lifo, _⟩ | ⟨w, now, present, woken, _, late⟩
    · contradiction
    · exact ⟨s, w, now, ran, present, woken, late⟩
  · have built : ({ delegate := some (State.initial Unit 0).delegate, backlogSize := 1 } :
        LifoBuilder Unit (AbstractLimiter.Counters Unit)).build =
          .ok ((State.initial Unit 0).delegate, cramped) := rfl
    have ended : (run (step (simpleDelegate fun _ => false) cramped)
        (start (State.initial Unit 0).delegate) findsFull).map (fun s =>
          (s.state.requests[1]?.map Request.phase, s.waits 1)) = some (some .refused, none) := by
      decide +kernel
    obtain ⟨s, ran, seen⟩ := Option.map_eq_some_iff.mp ended
    obtain ⟨phase, never⟩ := Prod.mk.inj seen
    obtain ⟨r, found, refused⟩ := Option.map_eq_some_iff.mp phase
    rcases (refused_after_deadline (.inr ⟨_, built⟩)).2 findsFull s ran 1 r found refused with
      full | ⟨w, now, present, _⟩
    · exact full
    · rw [never] at present
      contradiction
end Clocked
end Limen.BlockingLimiter
