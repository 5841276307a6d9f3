import Limen.BlockingLimiter.WaitFree

/-! `Unblock` one round at a time. It keeps `mu_` throughout, but the delegate has nothing to do
with `mu_`: between two rounds callers take the fast path, completions are mirrored and the cap
moves. -/
namespace Limen.BlockingLimiter
open Transition
variable {Ctx δ : Type} {d : Delegate Ctx δ} {discipline : Discipline}

/-- The next step of the call takes `mu_`. -/
def Phase.locks : Phase → Bool
  | .registering _ _ | .parking | .awake _ | .extracting _ _ _ | .unblocking _ _ => true
  | _ => false

/-- One round of the loop in `Unblock`, and whether another follows. -/
def State.round (d : Delegate Ctx δ) (now : Int) (s : State Ctx δ) : State Ctx δ × Bool :=
  match s.queue with
  | [] => (s, false)
  | w :: rest =>
    match s.requests[w]? with
    | none => (s, false)
    | some r =>
      match d.tryAcquire s.delegate r.context now with
      | (delegate, none) => ({ s with delegate }, false)
      | (delegate, some slot) => (s.handOff w rest delegate slot, true)

structure Rounds (Ctx δ : Type) extends State Ctx δ where
  /-- The call that is in the loop of `Unblock` and has `mu_`. -/
  holder : Option Nat

namespace Rounds

def start (delegate : δ) : Rounds Ctx δ := ⟨State.start delegate, none⟩

/-- Over a new `SimpleLimiter`. -/
def initial (Ctx : Type) (limit : Int) : Rounds Ctx (AbstractLimiter.Counters Unit) :=
  start (State.initial Ctx limit).delegate

/-- The call in the loop makes its next round; whoever else needs `mu_` waits. -/
def step (d : Delegate Ctx δ) (discipline : Discipline) (s : Rounds Ctx δ) :
    Event Ctx → Option (Rounds Ctx δ)
  | .advance i input => do
    let r ← s.requests[i]?
    match r.phase with
    | .unblocking admission call =>
      match s.holder with
      | none => some { s with holder := some i }
      | some j =>
        if j = i then
          match s.round d (input.now 0) with
          | (t, true) => some ⟨t, some i⟩
          | (t, false) =>
            some ⟨{ t with requests := t.requests.modify i (.moveTo (.completed admission call)) },
              none⟩
        else none
    | phase =>
      if phase.locks && s.holder.isSome then none
      else (s.toState.step d discipline (.advance i input)).map fun t => ⟨t, s.holder⟩
  | e => (s.toState.step d discipline e).map fun t => ⟨t, s.holder⟩
end Rounds

namespace State
variable {s t : State Ctx δ} {now : Int}

/-- A round that hands nothing over finds no waiter, or the delegate refuses the front. -/
theorem round_last (last : s.round d now = (t, false)) :
    (s.queue = [] ∧ t = s) ∨
      (∃ w rest, s.queue = w :: rest ∧ s.requests[w]? = none ∧ t = s) ∨
      ∃ w rest r delegate, s.queue = w :: rest ∧ s.requests[w]? = some r ∧
        d.tryAcquire s.delegate r.context now = (delegate, none) ∧ t = { s with delegate } := by
  rw [round] at last
  split at last
  · rename_i empty
    cases last
    exact .inl ⟨empty, rfl⟩
  · rename_i w rest queue
    split at last
    · rename_i missing
      cases last
      exact .inr (.inl ⟨w, rest, queue, missing, rfl⟩)
    · rename_i r found
      split at last
      · rename_i delegate refused
        cases last
        exact .inr (.inr ⟨w, rest, r, delegate, queue, found, refused, rfl⟩)
      · cases last

/-- The loop ends with a round that hands nothing over. -/
theorem unblock_last (last : s.round d now = (t, false)) :
    unblock d (fun _ => now) s.queue s = t := by
  rcases round_last last with ⟨empty, rfl⟩ | ⟨w, rest, queue, missing, rfl⟩ |
      ⟨w, rest, r, delegate, queue, found, refused, same⟩
  · rw [empty, unblock]
  · rw [queue, unblock, missing]
  · rw [queue, unblock, found]
    dsimp only
    rw [refused, same]

/-- A round that hands a slot over hands it to the front. -/
theorem round_hands (more : s.round d now = (t, true)) :
    ∃ w rest r delegate slot, s.queue = w :: rest ∧ s.requests[w]? = some r ∧
      d.tryAcquire s.delegate r.context now = (delegate, some slot) ∧
      t = s.handOff w rest delegate slot := by
  rw [round] at more
  split at more
  · cases more
  · rename_i w rest queue
    split at more
    · cases more
    · rename_i r found
      split at more
      · cases more
      · rename_i delegate slot granted
        cases more
        exact ⟨w, rest, r, delegate, slot, queue, found, granted, rfl⟩
end State

namespace Rounds
variable {s t : Rounds Ctx δ} {e : Event Ctx} {es : List (Event Ctx)}

/-- What a step is to the machine whose `Unblock` is one step. -/
inductive Moves (d : Delegate Ctx δ) (discipline : Discipline) (s : Rounds Ctx δ) :
    Event Ctx → Rounds Ctx δ → Prop
  | locked {i : Nat} {input : Input} {r : Request Ctx} {admission : Grant} {call : Completion Unit}
      (found : s.requests[i]? = some r) (atUnblock : r.phase = .unblocking admission call)
      (free : s.holder = none) : Moves d discipline s (.advance i input) { s with holder := some i }
  | handed {i w : Nat} {input : Input} {rest : List Nat} {r : Request Ctx} {delegate : δ}
      {slot : Slot Unit} (holds : s.holder = some i) (queue : s.queue = w :: rest)
      (found : s.requests[w]? = some r)
      (granted : d.tryAcquire s.delegate r.context (input.now 0) = (delegate, some slot)) :
      Moves d discipline s (.advance i input) ⟨s.handOff w rest delegate slot, some i⟩
  | ended {i : Nat} {input : Input} {r : Request Ctx} {admission : Grant} {call : Completion Unit}
      {t u : State Ctx δ} (holds : s.holder = some i) (found : s.requests[i]? = some r)
      (atUnblock : r.phase = .unblocking admission call)
      (last : s.round d (input.now 0) = (u, false))
      (stepped : s.toState.step d discipline (.advance i { now := fun _ => input.now 0 }) = some t) :
      Moves d discipline s (.advance i input) ⟨t, none⟩
  | stepped {e : Event Ctx} {t : State Ctx δ}
      (outside : ∀ i input r, e = .advance i input → s.requests[i]? = some r →
        (∀ admission call, r.phase ≠ .unblocking admission call) ∧
          (r.phase.locks = true → s.holder = none))
      (stepped : s.toState.step d discipline e = some t) : Moves d discipline s e ⟨t, s.holder⟩

theorem step_moves (stepped : s.step d discipline e = some t) : Moves d discipline s e t := by
  cases e with
  | advance i input =>
    simp only [step, Option.bind_eq_bind, Option.bind_eq_some_iff] at stepped
    obtain ⟨r, found, stepped⟩ := stepped
    split at stepped
    · rename_i admission call atUnblock
      split at stepped
      · rename_i free
        cases stepped
        exact .locked found atUnblock free
      · rename_i j holds
        split at stepped
        · rename_i here
          subst here
          split at stepped
          · rename_i u more
            cases stepped
            obtain ⟨w, rest, r', delegate, slot, queue, found', granted, rfl⟩ :=
              State.round_hands more
            exact .handed holds queue found' granted
          · rename_i u last
            cases stepped
            refine .ended holds found atUnblock last ?_
            simp only [State.step, found, Option.bind_eq_bind, Option.bind_some, atUnblock,
              State.unblock_last last]
        · contradiction
    · rename_i before
      split at stepped
      · contradiction
      · rename_i free
        obtain ⟨u, onward, rfl⟩ := Option.map_eq_some_iff.mp stepped
        refine .stepped ?_ onward
        rintro j input' r' ⟨⟩ found'
        obtain rfl : r = r' := Option.some.inj (found.symm.trans found')
        refine ⟨fun admission call atUnblock => before admission call atUnblock, fun locks => ?_⟩
        simpa [locks] using free
  | tryAcquire | guard | setLimit =>
    simp only [step, Option.map_eq_some_iff] at stepped
    obtain ⟨u, onward, rfl⟩ := stepped
    exact .stepped (by simp) onward

/-- Nothing but a round of its own moves a call that is in the loop of `Unblock`. -/
theorem unblocking_stays {u v : State Ctx δ} {j : Nat} {r : Request Ctx} {admission : Grant}
    {call : Completion Unit} (valid : u.Valid) (found : u.requests[j]? = some r)
    (atUnblock : r.phase = .unblocking admission call)
    (outside : ∀ i input r, e = .advance i input → u.requests[i]? = some r →
      ∀ admission call, r.phase ≠ .unblocking admission call)
    (stepped : u.step d discipline e = some v) : v.requests[j]? = some r := by
  cases e with
  | tryAcquire context =>
    cases stepped
    exact Pool.getElem?_concat_eq_some.mpr (.inl found)
  | setLimit value =>
    cases stepped
    exact found
  | guard op =>
    rcases State.step_guard valid stepped with
      ⟨heap, rfl, _⟩ | ⟨heap, other, r', ticket, admission', found', atHeld, _, rfl, _⟩
    · exact found
    · refine (Pool.getElem?_modify_other _ ?_).trans found
      rintro rfl
      obtain rfl : r = r' := Option.some.inj (found.symm.trans found')
      rw [atUnblock] at atHeld
      contradiction
  | advance i input =>
    obtain ⟨r', found', ⟨admission', call', atLoop, _⟩ | ⟨shared, next, made, heap, _, _, rfl⟩⟩ :=
      State.step_advance stepped
    · exact absurd atLoop (outside i input r' rfl found' admission' call')
    · refine (Pool.getElem?_modify_other _ ?_).trans found
      rintro rfl
      obtain rfl : r = r' := Option.some.inj (found.symm.trans found')
      exact outside j input r rfl found admission call atUnblock

/-- A hand-off leaves the call that makes it where it is. -/
theorem handOff_keeps {u : State Ctx δ} {i w : Nat} {rest : List Nat} {r : Request Ctx}
    {delegate : δ} {slot : Slot Unit} (valid : u.Valid) (queue : u.queue = w :: rest)
    (found : u.requests[i]? = some r) (notWaiting : r.phase.waiter? = none) :
    (u.handOff w rest delegate slot).requests[i]? = some r := by
  refine (Pool.getElem?_modify_other _ ?_).trans found
  rintro rfl
  obtain ⟨waiter, waits, _⟩ := valid.front queue found
  rw [notWaiting] at waits
  contradiction

/-- The call that has `mu_` between two steps is in the loop of `Unblock`. -/
structure Valid (s : Rounds Ctx δ) : Prop where
  valid : s.toState.Valid
  held : ∀ i, s.holder = some i → ∃ r admission call, s.requests[i]? = some r ∧
    r.phase = .unblocking admission call

theorem valid_step (valid : s.Valid) (stepped : s.step d discipline e = some t) : t.Valid := by
  cases step_moves stepped with
  | locked found atUnblock free =>
    refine ⟨valid.valid, ?_⟩
    rintro j ⟨⟩
    exact ⟨_, _, _, found, atUnblock⟩
  | handed holds queue found granted =>
    refine ⟨State.valid_handOff valid.valid queue found, ?_⟩
    rintro j ⟨⟩
    obtain ⟨r, admission, call, found, atUnblock⟩ := valid.held _ holds
    exact ⟨r, admission, call, handOff_keeps valid.valid queue found (by rw [atUnblock]; rfl),
      atUnblock⟩
  | ended holds found atUnblock last onward =>
    exact ⟨State.valid_step valid.valid onward, by simp⟩
  | stepped outside onward =>
    refine ⟨State.valid_step valid.valid onward, fun j holds => ?_⟩
    obtain ⟨r, admission, call, found, atUnblock⟩ := valid.held j holds
    refine ⟨r, admission, call, ?_, atUnblock⟩
    exact unblocking_stays valid.valid found atUnblock
      (fun i input r same found => (outside i input r same found).1) onward

theorem start_valid (delegate : δ) : (start delegate : Rounds Ctx δ).Valid :=
  ⟨State.start_valid delegate, by simp [start]⟩

theorem run_valid {delegate : δ} (ran : run (step d discipline) (start delegate) es = some s) :
    s.Valid :=
  Transition.invariant valid_step ran (start_valid delegate)

/-- What the machine whose `Unblock` is one step keeps, and a single hand-off too, is kept
here. -/
theorem invariant {P : State Ctx δ → Prop}
    (steps : ∀ {u e v}, u.Valid → P u → u.step d discipline e = some v → P v)
    (handsOff : ∀ {u w rest r delegate slot now}, u.Valid → P u → u.queue = w :: rest →
      u.requests[w]? = some r → d.tryAcquire u.delegate r.context now = (delegate, some slot) →
      P (u.handOff w rest delegate slot))
    {delegate : δ} (ran : run (step d discipline) (start delegate) es = some s)
    (initial : P (State.start delegate)) : P s.toState := by
  refine (Transition.invariant (P := fun s : Rounds Ctx δ => s.Valid ∧ P s.toState) ?_ ran
    ⟨start_valid delegate, initial⟩).2
  rintro s e t ⟨valid, holds⟩ stepped
  refine ⟨valid_step valid stepped, ?_⟩
  cases step_moves stepped with
  | locked found atUnblock free => exact holds
  | handed _ queue found granted => exact handsOff valid.valid holds queue found granted
  | ended _ _ _ _ onward => exact steps valid.valid holds onward
  | stepped _ onward => exact steps valid.valid holds onward

section Uninterrupted
variable {u v : State Ctx δ} {i : Nat} {r : Request Ctx} {admission : Grant} {call : Completion Unit}

theorem step_hands {u' : State Ctx δ} {input : Input} (found : u.requests[i]? = some r)
    (atUnblock : r.phase = .unblocking admission call)
    (more : u.round d (input.now 0) = (u', true)) :
    step d discipline ⟨u, some i⟩ (.advance i input) = some ⟨u', some i⟩ := by
  simp [step, found, atUnblock, more]

theorem step_ends {u' : State Ctx δ} {input : Input} (found : u.requests[i]? = some r)
    (atUnblock : r.phase = .unblocking admission call)
    (last : u.round d (input.now 0) = (u', false)) :
    step d discipline ⟨u, some i⟩ (.advance i input) = some
      ⟨{ u' with requests := u'.requests.modify i (.moveTo (.completed admission call)) }, none⟩ := by
  simp [step, found, atUnblock, last]

variable (d discipline) in
/-- The rounds of an `Unblock`, one right after the other. -/
theorem exists_rounds (now : Nat → Int) {queue : List Nat} (same : u.queue = queue) (valid : u.Valid)
    (found : u.requests[i]? = some r) (atUnblock : r.phase = .unblocking admission call) :
    ∃ rounds, run (step d discipline) ⟨u, some i⟩ rounds = some
      ⟨{ u.unblock d now queue with
        requests := (u.unblock d now queue).requests.modify i
          (.moveTo (.completed admission call)) }, none⟩ := by
  induction queue generalizing u with
  | nil =>
    have last : u.round d 0 = (u, false) := by rw [State.round, same]
    exact ⟨[.advance i {}], (run_single ..).trans (step_ends found atUnblock last)⟩
  | cons w rest ih =>
    obtain ⟨r', waiter, found', _⟩ := valid.queued w (by simp [same])
    rcases tried : d.tryAcquire u.delegate r'.context (now rest.length) with ⟨delegate, _ | slot⟩
    · have last : u.round d (now rest.length) = ({ u with delegate }, false) := by
        simp only [State.round, same, found', tried]
      have stopped : u.unblock d now (w :: rest) = { u with delegate } := by
        simp only [State.unblock, found', tried]
      rw [stopped]
      exact ⟨[.advance i { now := fun _ => now rest.length }],
        (run_single ..).trans (step_ends found atUnblock last)⟩
    · have more : u.round d (now rest.length) = (u.handOff w rest delegate slot, true) := by
        simp only [State.round, same, found', tried]
      have onward : u.unblock d now (w :: rest) =
          (u.handOff w rest delegate slot).unblock d now rest := by
        simp only [State.unblock, found', tried]
      obtain ⟨rounds, ran⟩ := ih (u := u.handOff w rest delegate slot) rfl
        (State.valid_handOff valid same found')
        (handOff_keeps valid same found (by rw [atUnblock]; rfl))
      rw [onward]
      exact ⟨.advance i { now := fun _ => now rest.length } :: rounds,
        run_cons_eq_some.mpr ⟨_, step_hands found atUnblock more, ran⟩⟩

/-- While nobody has `mu_`, a step of the machine whose `Unblock` is one step is a run here. -/
theorem exists_run_step (valid : u.Valid) (stepped : u.step d discipline e = some v) :
    ∃ es, run (step d discipline) ⟨u, none⟩ es = some ⟨v, none⟩ := by
  cases e with
  | tryAcquire context => exact ⟨[.tryAcquire context], by simp [run_single, step, stepped]⟩
  | guard op => exact ⟨[.guard op], by simp [run_single, step, stepped]⟩
  | setLimit value => exact ⟨[.setLimit value], by simp [run_single, step, stepped]⟩
  | advance i input =>
    obtain ⟨r, found, ⟨admission, call, atUnblock, rfl⟩ | ⟨_, _, _, _, moved, _, _⟩⟩ :=
      State.step_advance stepped
    · obtain ⟨rounds, ran⟩ := exists_rounds d discipline input.now rfl valid found atUnblock
      refine ⟨.advance i {} :: rounds, run_cons_eq_some.mpr ⟨⟨u, some i⟩, ?_, ran⟩⟩
      simp [step, found, atUnblock]
    · refine ⟨[.advance i input], (run_single ..).trans ?_⟩
      simp only [step, found, Option.bind_eq_bind, Option.bind_some]
      split
      · rename_i admission call atUnblock
        rw [atUnblock] at moved
        cases moved
      · simp [stepped]

theorem exists_run {delegate : δ} {es : List (Event Ctx)}
    (ran : run (State.step d discipline) (State.start delegate) es = some u) :
    ∃ fs, run (step d discipline) (start delegate) fs = some ⟨u, none⟩ := by
  refine State.valid_invariant (P := fun u => ∃ fs, run (step d discipline) (start delegate) fs =
    some ⟨u, none⟩) ?_ (State.start_valid delegate) ran ⟨[], rfl⟩
  rintro u e v valid ⟨fs, before⟩ stepped
  obtain ⟨more, onward⟩ := exists_run_step valid stepped
  exact ⟨fs ++ more, run_append_eq_some.mpr ⟨_, before, onward⟩⟩
end Uninterrupted
end Rounds
end Limen.BlockingLimiter
