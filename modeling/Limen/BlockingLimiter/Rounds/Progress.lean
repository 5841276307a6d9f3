import Limen.BlockingLimiter.Rounds.Slots
import Mathlib.Algebra.Order.BigOperators.Group.List

/-! Progress where `mu_` is held from round to round. Whoever waits for `mu_` waits for a loop that
comes to its end, since each of its rounds serves a parked caller. -/
namespace Limen.BlockingLimiter

/-- The steps of a call that are still to come at most: its own, the taking of `mu_` for its loop,
and the round that hands it a slot. -/
def Phase.ahead : Phase → Nat
  | .trying => 11
  | .parking => 10
  | .waiting waiter => if waiter.slot.isNone then 9 else 8
  | .awake waiter => if waiter.slot.isNone then 8 else 7
  | .numbering _ => 6
  | .registering _ _ => 5
  | .held _ _ | .extracting _ _ _ => 4
  | .mirroring _ _ _ => 3
  | .unblocking _ _ => 2
  | .refused | .completed _ _ => 0

theorem ahead_deliver {phase : Phase} {waiter : WaiterSlot} (waits : phase.waiter? = some waiter)
    (empty : waiter.slot = none) (inner : Grant) :
    (phase.deliver inner).ahead + 1 = phase.ahead := by
  cases phase <;> simp_all [Phase.waiter?, Phase.deliver, Phase.ahead]

variable {Ctx δ : Type} {d : Delegate Ctx δ} {discipline : Discipline} {i : Nat}

theorem Moves.ahead {context : Ctx} {s s' : Shared δ} {input : Input} {phase next : Phase}
    {made : Option (Slot Unit)}
    (moved : Moves d discipline i context s input phase s' next made) :
    next.ahead + 1 ≤ phase.ahead := by
  cases moved with
  | woken waiter =>
    simp only [Phase.ahead]
    split <;> simp
  | delivered slot => simp [Phase.ahead, slot]
  | timedOut empty => simp [Phase.ahead, empty]
  | _ => simp [Phase.ahead]

namespace Rounds
open Transition
variable {s t : Rounds Ctx δ} {e : Event Ctx} {es : List (Event Ctx)}

def total (requests : List (Request Ctx)) : Nat := (requests.map fun r => r.phase.ahead).sum

/-- A loop that has `mu_` has taken the first of its steps. -/
def potential (s : Rounds Ctx δ) : Nat := total s.requests - s.holder.isSome.toNat

theorem total_modify {requests : List (Request Ctx)} {r : Request Ctx}
    {f : Request Ctx → Request Ctx} (found : requests[i]? = some r) :
    total (requests.modify i f) + r.phase.ahead ≤ total requests + (f r).phase.ahead :=
  Pool.sum_modify_alone_le found

theorem ahead_le_total {requests : List (Request Ctx)} {r : Request Ctx}
    (found : requests[i]? = some r) : r.phase.ahead ≤ total requests :=
  List.le_sum_of_mem (List.mem_map_of_mem (List.mem_of_getElem? found))

theorem handOff_total {u : State Ctx δ} {w : Nat} {rest : List Nat} {r : Request Ctx}
    {delegate : δ} {slot : Slot Unit} (valid : u.Valid) (queue : u.queue = w :: rest)
    (found : u.requests[w]? = some r) :
    total (u.handOff w rest delegate slot).requests + 1 ≤ total u.requests := by
  obtain ⟨waiter, waits, empty⟩ := valid.front queue found
  have moved := total_modify (f := Request.deliver ⟨u.granted, slot⟩) found
  have served := ahead_deliver waits empty ⟨u.granted, slot⟩
  have same : (Request.deliver ⟨u.granted, slot⟩ r).phase.ahead =
      (r.phase.deliver ⟨u.granted, slot⟩).ahead := rfl
  simp only [State.handOff]
  omega

theorem advance_total {u v : State Ctx δ} {input : Input} (valid : u.Valid)
    (stepped : u.step d discipline (.advance i input) = some v) :
    ∃ r, u.requests[i]? = some r ∧ total v.requests + 1 ≤ total u.requests ∧
      ∀ admission call, r.phase = .unblocking admission call →
        total v.requests + 2 ≤ total u.requests := by
  obtain ⟨r, found, ⟨admission, call, atUnblock, rfl⟩ |
    ⟨shared, next, made, heap, moved, _, rfl⟩⟩ := State.step_advance stepped
  · have less : total (u.unblock d input.now u.queue).requests ≤ total u.requests := by
      refine State.unblock_valid_invariant (P := fun v => total v.requests ≤ total u.requests)
        ?_ ?_ valid (Nat.le_refl _)
      · intro v w rest r delegate slot now valid less queue found _
        have served : total (v.handOff w rest delegate slot).requests + 1 ≤ total v.requests :=
          handOff_total valid queue found
        omega
      · exact fun less _ => less
    have kept : (u.unblock d input.now u.queue).requests[i]? = some r :=
      State.unblock_keeps valid found (by rw [atUnblock]; rfl)
    have ended := total_modify (f := .moveTo (.completed admission call)) kept
    have before : r.phase.ahead = 2 := by rw [atUnblock]; rfl
    have after : (Request.moveTo (.completed admission call) r).phase.ahead = 0 := rfl
    refine ⟨r, found, ?_, fun _ _ _ => ?_⟩ <;> dsimp only <;> omega
  · have onward := total_modify (f := .moveTo next) found
    have fewer := moved.ahead
    have same : (Request.moveTo next r).phase.ahead = next.ahead := rfl
    refine ⟨r, found, by dsimp only; omega, fun admission call atUnblock => ?_⟩
    rw [atUnblock] at moved
    cases moved

/-- Who has `mu_` has its last step before it. -/
theorem Valid.holder_le_total (valid : s.Valid) : 2 * s.holder.isSome.toNat ≤ total s.requests := by
  cases holds : s.holder with
  | none => simp
  | some j =>
    obtain ⟨r, admission, call, found, atUnblock⟩ := valid.held j holds
    have least := ahead_le_total found
    rw [atUnblock] at least
    exact least

theorem step_spends (valid : s.Valid) (stepped : s.step d discipline e = some t) :
    (State.advances e).toNat + t.potential ≤ s.potential + 11 * (State.arrives e).toNat := by
  have before := valid.holder_le_total
  have after := (valid_step valid stepped).holder_le_total
  cases step_moves stepped with
  | locked found atUnblock free =>
    simp only [potential, free, State.advances, State.arrives, Option.isSome_some,
      Option.isSome_none, Bool.toNat_true, Bool.toNat_false] at before after ⊢
    omega
  | @handed i w input rest r delegate slot holds queue found granted =>
    have served : total (s.handOff w rest delegate slot).requests + 1 ≤ total s.requests :=
      handOff_total valid.valid queue found
    simp only [potential, holds, State.advances, State.arrives, Option.isSome_some,
      Bool.toNat_true, Bool.toNat_false] at before after ⊢
    omega
  | ended holds found atUnblock last onward =>
    obtain ⟨r, found', _, less⟩ := advance_total valid.valid onward
    obtain rfl := Option.some.inj (found.symm.trans found')
    have less := less _ _ atUnblock
    simp only [potential, holds, State.advances, State.arrives, Option.isSome_some,
      Option.isSome_none, Bool.toNat_true, Bool.toNat_false] at before after ⊢
    omega
  | @stepped e u outside onward =>
    cases e with
    | tryAcquire context =>
      cases onward
      simp [potential, total, State.advances, State.arrives, Phase.ahead]
      omega
    | setLimit value =>
      cases onward
      simp [potential, State.advances, State.arrives]
    | guard op =>
      rcases State.step_guard valid.valid onward with
        ⟨heap, rfl, _⟩ | ⟨heap, call, r, ticket, admission, found, atHeld, _, rfl, _⟩
      · simp [potential, State.advances, State.arrives]
      · have moved := total_modify (f := .moveTo (.extracting ticket admission call)) found
        have was : r.phase.ahead = 4 := by rw [atHeld]; rfl
        have is : (Request.moveTo (.extracting ticket admission call) r).phase.ahead = 4 := rfl
        simp only [potential, State.advances, State.arrives, Bool.toNat_false]
        omega
    | advance i input =>
      obtain ⟨r, found, less, _⟩ := advance_total valid.valid onward
      simp only [potential, State.advances, State.arrives, Bool.toNat_true, Bool.toNat_false]
        at before after ⊢
      omega

theorem countP_advances_le {delegate : δ}
    (ran : run (step d discipline) (start delegate) es = some s) :
    es.countP State.advances ≤ 11 * es.countP State.arrives := by
  have along : Along (step d discipline) (fun s _ => s.Valid) (start delegate) es := by
    rw [along_iff]
    rintro before e after t rfl reached
    exact run_valid reached
  have spent : es.countP State.advances + s.potential ≤
      (start delegate : Rounds Ctx δ).potential + 11 * es.countP State.arrives :=
    countP_granted_le potential (fun valid stepped => step_spends valid stepped) ran along
  have begun : (start delegate : Rounds Ctx δ).potential = 0 := rfl
  omega

/-- Whoever has `mu_` can go on, and so can everybody while nobody has it. -/
theorem exists_step (valid : s.Valid) (roomy : s.heap.Roomy) (inside : ¬ s.toState.Outside) :
    ∃ e t, s.step d discipline e = some t ∧ State.advances e = true ∧ t.potential < s.potential := by
  suffices stepped : ∃ i input t, s.step d discipline (.advance i input) = some t by
    obtain ⟨i, input, t, stepped⟩ := stepped
    have spent := step_spends valid stepped
    simp only [State.advances, State.arrives, Bool.toNat_true, Bool.toNat_false] at spent
    exact ⟨_, t, stepped, rfl, by omega⟩
  obtain ⟨u, holder⟩ := s
  cases holder with
  | some i =>
    obtain ⟨r, admission, call, found, atUnblock⟩ := valid.held i rfl
    rcases ended : u.round d 0 with ⟨v, _ | _⟩
    · exact ⟨i, {}, _, step_ends found atUnblock ended⟩
    · exact ⟨i, {}, _, step_hands found atUnblock ended⟩
  | none =>
    obtain ⟨e, v, onward, advances, _⟩ : ∃ e v, u.step d discipline e = some v ∧
        State.advances e = true ∧ v.potential < u.potential :=
      State.exists_step valid.valid roomy inside
    cases e with
    | advance i input =>
      obtain ⟨r, found, _⟩ := State.step_advance onward
      by_cases last : ∃ admission call, r.phase = .unblocking admission call
      · obtain ⟨admission, call, atUnblock⟩ := last
        refine ⟨i, input, ⟨u, some i⟩, ?_⟩
        simp [step, found, atUnblock]
      · refine ⟨i, input, ⟨v, none⟩, ?_⟩
        simp only [step, found, Option.bind_eq_bind, Option.bind_some]
        split
        · rename_i admission call atUnblock
          exact absurd ⟨admission, call, atUnblock⟩ last
        · simp [onward]
    | _ => contradiction

theorem run_roomy {delegate : δ} (ran : run (step d discipline) (start delegate) es = some s) :
    s.heap.Roomy := by
  refine invariant (P := fun u : State Ctx δ => u.heap.Roomy) ?_ ?_ ran
    (by simp [Heap.Roomy, State.start])
  · exact fun _ roomy stepped => State.roomy_step roomy stepped
  · exact fun _ roomy _ _ _ => roomy

theorem Valid.unlocked_of_outside (valid : s.Valid) (outside : s.toState.Outside) :
    s.holder = none := by
  by_contra locked
  obtain ⟨i, holds⟩ := Option.ne_none_iff_exists'.mp locked
  obtain ⟨r, admission, call, found, atUnblock⟩ := valid.held i holds
  have returned := outside r (List.mem_of_getElem? found)
  rw [atUnblock] at returned
  contradiction

theorem exists_outside {delegate : δ}
    (ran : run (step d discipline) (start delegate) es = some s) :
    ∃ more t, run (step d discipline) s more = some t ∧ t.toState.Outside ∧ t.holder = none ∧
      ∀ e ∈ more, State.advances e = true := by
  have completion : ∃ more t, run (step d discipline) s more = some t ∧
      (t.Valid → t.heap.Roomy → t.toState.Outside) ∧ ∀ e ∈ more, State.advances e = true := by
    refine exists_completion potential (fun {u} unfinished => ?_) s
    by_cases valid : u.Valid
    · by_cases roomy : u.heap.Roomy
      · exact exists_step valid roomy fun outside => unfinished fun _ _ => outside
      · exact absurd (fun _ there => absurd there roomy) unfinished
    · exact absurd (fun there => absurd there valid) unfinished
  obtain ⟨more, t, led, ended, own⟩ := completion
  have whole := run_append_eq_some.mpr ⟨s, ran, led⟩
  have outside := ended (run_valid whole) (run_roomy whole)
  exact ⟨more, t, led, outside, (run_valid whole).unlocked_of_outside outside, own⟩

/-- For every delegate and either discipline, with `mu_` held through all rounds of an `Unblock`:
a call, its completion and the hand-over of its slot make no more than eleven steps, and whatever
state a run has come to, all calls can return from it by steps of their own, `mu_` being free at
the end. -/
theorem lock_comes_free (d : Delegate Ctx δ) (discipline : Discipline) (delegate : δ)
    (es : List (Event Ctx)) (s : Rounds Ctx δ)
    (ran : run (step d discipline) (start delegate) es = some s) :
    es.countP State.advances ≤ 11 * es.countP State.arrives ∧
      ∃ more t, run (step d discipline) s more = some t ∧ t.toState.Outside ∧ t.holder = none ∧
        ∀ e ∈ more, State.advances e = true :=
  ⟨countP_advances_le ran, exists_outside ran⟩

/-- In the middle of the first `Unblock` the other completion waits for `mu_`. -/
theorem overtaken_comes_free : ∃ s more t,
    run (step (simpleDelegate fun _ => false) .fifo) (start (State.initial Unit 2).delegate)
      (overtaken.take 24) = some s ∧ s.holder = some 0 ∧
    step (simpleDelegate fun _ => false) .fifo s (.advance 1 {}) = none ∧
    run (step (simpleDelegate fun _ => false) .fifo) s more = some t ∧ t.toState.Outside ∧
      t.holder = none := by
  have ended : (run (step (simpleDelegate fun _ => false) .fifo)
      (start (State.initial Unit 2).delegate) (overtaken.take 24)).map
        (fun s => (s.holder, (step (simpleDelegate fun _ => false) .fifo s
          (.advance 1 {})).isNone)) = some (some 0, true) := by decide +kernel
  obtain ⟨s, ran, seen⟩ := Option.map_eq_some_iff.mp ended
  obtain ⟨holds, waits⟩ := Prod.mk.inj seen
  obtain ⟨_, more, t, led, outside, free, _⟩ := lock_comes_free _ _ _ (overtaken.take 24) s ran
  exact ⟨s, more, t, ran, holds, Option.isNone_iff_eq_none.mp waits, led, outside, free⟩
end Rounds
end Limen.BlockingLimiter
