import Limen.BlockingLimiter.HandOff
import Limen.Progress
import Mathlib.Data.Set.Finite.Basic

/-! Nobody is stuck inside a blocking limiter. A call passes through each of its sections once, a
wait apart, and whatever state a run has come to, the calls can all be led out of it by steps of
their own. -/
namespace Limen

namespace Heap
variable {L : Type} {h h' : Heap L}

/-- Finitely many guards exist, so that there is always a free address. -/
def Roomy (h : Heap L) : Prop := {addr | h addr ≠ none}.Finite

theorem Roomy.exists_free (roomy : h.Roomy) : ∃ addr, h addr = none := by
  obtain ⟨addr, free⟩ := roomy.infinite_compl.nonempty
  exact ⟨addr, not_not.mp free⟩

theorem Roomy.update (roomy : h.Roomy) (addr : Nat) (g : Option (SlotGuard L)) :
    Roomy (Function.update h addr g) := by
  refine (roomy.insert addr).subset fun other present => ?_
  by_cases here : other = addr
  · exact .inl here
  · exact .inr (by simpa [Function.update_apply, here] using present)

theorem Roomy.construct {dst id : Nat} {made : Option (Slot L)} (roomy : h.Roomy)
    (constructed : h.construct dst id made = some h') : h'.Roomy := by
  cases made with
  | none =>
    cases constructed
    exact roomy
  | some slot =>
    simp only [Heap.construct, make] at constructed
    split at constructed
    · cases constructed
      exact roomy.update dst _
    · contradiction

theorem Roomy.apply {op : GuardOp} {completion : Option (Completion L)} (roomy : h.Roomy)
    (applied : h.apply op = some (h', completion)) : h'.Roomy := by
  cases op with
  | moveConstruct dst src =>
    simp only [Heap.apply] at applied
    split at applied
    · cases applied
      exact (roomy.update dst _).update src _
    · contradiction
  | moveAssign dst src =>
    simp only [Heap.apply] at applied
    split at applied
    · split at applied <;> cases applied
      · exact roomy
      · exact (roomy.update dst _).update src _
    · contradiction
  | complete addr status =>
    obtain ⟨g, _, same⟩ := Option.map_eq_some_iff.mp applied
    cases same
    exact roomy.update addr _
  | destroy addr =>
    obtain ⟨g, _, same⟩ := Option.map_eq_some_iff.mp applied
    cases same
    exact roomy.update addr _
end Heap

namespace BlockingLimiter
open Transition

/-- The steps of a call and of its completion that are still to come at most. -/
def Phase.left : Phase → Nat
  | .trying => 9
  | .parking => 8
  | .waiting _ => 7
  | .awake _ => 6
  | .numbering _ => 5
  | .registering _ _ => 4
  | .held _ _ | .extracting _ _ _ => 3
  | .mirroring _ _ _ => 2
  | .unblocking _ _ => 1
  | .refused | .completed _ _ => 0

/-- `TryAcquire` has returned, and so has the completion if there was one. -/
def Phase.outside : Phase → Bool
  | .refused | .held _ _ | .completed _ _ => true
  | _ => false

@[simp] theorem left_deliver (phase : Phase) (inner : Grant) :
    (phase.deliver inner).left = phase.left := by
  cases phase <;> rfl

section
variable {Ctx δ : Type} {d : Delegate Ctx δ} {discipline : Discipline} {i : Nat} {context : Ctx}
  {input : Input} {phase next : Phase} {made : Option (Slot Unit)}

theorem Moves.left {s s' : Shared δ}
    (moved : Moves d discipline i context s input phase s' next made) :
    next.left + 1 ≤ phase.left := by
  cases moved <;> simp [Phase.left]

/-- Only registration constructs a guard, so that with a free address every step is possible. -/
theorem exists_advance (d : Delegate Ctx δ) (discipline : Discipline) (i : Nat) (context : Ctx)
    (s : Shared δ) (input : Input) (inside : phase.outside = false)
    (before : ∀ admission call, phase ≠ .unblocking admission call) :
    ∃ s' next made, phase.advance d discipline i context s input = some (s', next, made) := by
  cases phase with
  | trying =>
    simp only [Phase.advance]
    split <;> exact ⟨_, _, _, rfl⟩
  | registering ticket inner =>
    simp only [Phase.advance]
    split <;> exact ⟨_, _, _, rfl⟩
  | parking =>
    simp only [Phase.advance]
    split <;> exact ⟨_, _, _, rfl⟩
  | awake waiter =>
    simp only [Phase.advance]
    split <;> exact ⟨_, _, _, rfl⟩
  | mirroring inner admission call => cases inner <;> exact ⟨_, _, _, rfl⟩
  | unblocking admission call => exact absurd rfl (before admission call)
  | refused | held | completed => contradiction
  | numbering | waiting | extracting => exact ⟨_, _, _, rfl⟩

namespace State
variable {s t : State Ctx δ} {e : Event Ctx} {es : List (Event Ctx)}

def advances : Event Ctx → Bool
  | .advance _ _ => true
  | _ => false

def arrives : Event Ctx → Bool
  | .tryAcquire _ => true
  | _ => false

def potential (s : State Ctx δ) : Nat := (s.requests.map fun r => r.phase.left).sum

def Outside (s : State Ctx δ) : Prop := ∀ r ∈ s.requests, r.phase.outside = true

instance (s : State Ctx δ) : Decidable s.Outside :=
  inferInstanceAs (Decidable (∀ r ∈ s.requests, r.phase.outside = true))

/-- A move of one call. -/
theorem potential_modify {r : Request Ctx} {f : Request Ctx → Request Ctx}
    {requests : List (Request Ctx)} (found : requests[i]? = some r) :
    ((requests.modify i f).map fun r => r.phase.left).sum + r.phase.left ≤
      (requests.map fun r => r.phase.left).sum + (f r).phase.left :=
  Pool.sum_modify_alone_le found

theorem potential_unblock {now : Nat → Int} :
    (unblock d now s.queue s).potential ≤ s.potential := by
  refine unblock_invariant (P := fun t => t.potential ≤ s.potential) ?_ ?_ rfl (Nat.le_refl _)
  · intro u w rest r delegate slot now less _ found _
    have moved := potential_modify (f := Request.deliver ⟨u.granted, slot⟩) found
    have same : (Request.deliver ⟨u.granted, slot⟩ r).phase.left = r.phase.left :=
      left_deliver _ _
    simp only [potential, handOff] at less ⊢
    omega
  · exact fun less _ _ _ => less

theorem advance_spends {input : Input} (valid : s.Valid)
    (stepped : s.step d discipline (.advance i input) = some t) :
    t.potential + 1 ≤ s.potential := by
  obtain ⟨r, found, ⟨admission, call, atUnblock, rfl⟩ |
    ⟨shared, next, made, heap, moved, _, rfl⟩⟩ := step_advance stepped
  · have less : (unblock d input.now s.queue s).potential ≤ s.potential := potential_unblock
    have kept : (unblock d input.now s.queue s).requests[i]? = some r :=
      unblock_keeps valid found (by rw [atUnblock]; rfl)
    have ended := potential_modify (f := .moveTo (.completed admission call)) kept
    have last : r.phase.left = 1 := by rw [atUnblock]; rfl
    have none : (Request.moveTo (.completed admission call) r).phase.left = 0 := rfl
    simp only [potential] at less ⊢
    omega
  · have total := potential_modify (f := .moveTo next) found
    have fewer := moved.left
    have same : (Request.moveTo next r).phase.left = next.left := rfl
    simp only [potential]
    omega

theorem step_spends (valid : s.Valid) (stepped : s.step d discipline e = some t) :
    (advances e).toNat + t.potential ≤ s.potential + 9 * (arrives e).toNat := by
  cases e with
  | tryAcquire context =>
    cases stepped
    simp [potential, advances, arrives, Phase.left]
  | setLimit value =>
    cases stepped
    simp [potential, advances, arrives]
  | guard op =>
    rcases step_guard valid stepped with
      ⟨heap, rfl, _⟩ | ⟨heap, call, r, ticket, admission, found, atHeld, _, rfl, _⟩
    · simp [potential, advances, arrives]
    · have total := potential_modify (f := .moveTo (.extracting ticket admission call)) found
      have before : r.phase.left = 3 := by rw [atHeld]; rfl
      have after : (Request.moveTo (.extracting ticket admission call) r).phase.left = 3 := rfl
      simp only [potential, advances, arrives, Bool.toNat_false]
      omega
  | advance i input =>
    have less := advance_spends valid stepped
    simp only [advances, arrives, Bool.toNat_true, Bool.toNat_false]
    omega

theorem countP_advances_le {delegate : δ}
    (ran : run (step d discipline) (start delegate) es = some s) :
    es.countP advances ≤ 9 * es.countP arrives := by
  have along : Along (step d discipline) (fun s _ => s.Valid) (start delegate) es := by
    rw [along_iff]
    rintro before e after t rfl reached
    exact run_valid reached
  have spent : es.countP advances + s.potential ≤
      (start delegate : State Ctx δ).potential + 9 * es.countP arrives :=
    countP_granted_le potential (fun valid stepped => step_spends valid stepped) ran along
  have begun : (start delegate : State Ctx δ).potential = 0 := rfl
  omega

/-- No step but a registration needs an address, and a registration gets it. -/
theorem exists_step (valid : s.Valid) (roomy : s.heap.Roomy) (inside : ¬ s.Outside) :
    ∃ e t, s.step d discipline e = some t ∧ advances e = true ∧ t.potential < s.potential := by
  simp only [Outside, not_forall] at inside
  obtain ⟨r, member, inside⟩ := inside
  obtain ⟨i, found⟩ := List.getElem?_of_mem member
  obtain ⟨addr, free⟩ := roomy.exists_free
  suffices stepped : ∃ t, s.step d discipline (.advance i { addr }) = some t by
    obtain ⟨t, stepped⟩ := stepped
    exact ⟨_, t, stepped, rfl, advance_spends valid stepped⟩
  by_cases last : ∃ admission call, r.phase = .unblocking admission call
  · obtain ⟨admission, call, atUnblock⟩ := last
    simp only [step, found, Option.bind_eq_bind, Option.bind_some, atUnblock]
    exact ⟨_, rfl⟩
  · push Not at last
    obtain ⟨shared, next, made, advanced⟩ := exists_advance d discipline i r.context s.toShared
      { addr } (by simpa using inside) last
    have constructed : ∃ heap, s.heap.construct addr i made = some heap := by
      cases made with
      | none => exact ⟨_, rfl⟩
      | some slot =>
        rw [Heap.construct, Heap.make, free]
        exact ⟨_, rfl⟩
    obtain ⟨heap, constructed⟩ := constructed
    simp only [step, found, Option.bind_eq_bind, Option.bind_some, advanced, constructed]
    exact ⟨_, rfl⟩

theorem roomy_step (roomy : s.heap.Roomy)
    (stepped : s.step d discipline e = some t) : t.heap.Roomy := by
  cases e with
  | tryAcquire context =>
    cases stepped
    exact roomy
  | setLimit value =>
    cases stepped
    exact roomy
  | guard op =>
    simp only [step, Option.bind_eq_bind, Option.bind_eq_some_iff] at stepped
    obtain ⟨⟨heap, completion⟩, applied, stepped⟩ := stepped
    have after := roomy.apply applied
    cases completion <;> cases stepped <;> exact after
  | advance i input =>
    obtain ⟨r, found, ⟨admission, call, atUnblock, rfl⟩ |
      ⟨shared, next, made, heap, moved, constructed, rfl⟩⟩ := step_advance stepped
    · refine unblock_invariant (P := fun t => t.heap.Roomy) ?_ ?_ rfl roomy
      · exact fun roomy _ _ _ => roomy
      · exact fun roomy _ _ _ => roomy
    · exact roomy.construct constructed

/-- From every reachable state the calls get out, by steps of their own. -/
theorem exists_outside {delegate : δ}
    (ran : run (step d discipline) (start delegate) es = some s) :
    ∃ more t, run (step d discipline) s more = some t ∧ t.Outside ∧
      ∀ e ∈ more, advances e = true := by
  have sound : s.Valid ∧ s.heap.Roomy := by
    exact ⟨run_valid ran, invariant roomy_step ran (by simp [Heap.Roomy, start])⟩
  have completion : ∃ more t, run (step d discipline) s more = some t ∧
      (t.Valid → t.heap.Roomy → t.Outside) ∧ ∀ e ∈ more, advances e = true := by
    refine exists_completion potential (fun {u} unfinished => ?_) s
    by_cases valid : u.Valid
    · by_cases roomy : u.heap.Roomy
      · exact exists_step valid roomy fun outside => unfinished fun _ _ => outside
      · exact absurd (fun _ there => absurd there roomy) unfinished
    · exact absurd (fun there => absurd there valid) unfinished
  obtain ⟨more, t, led, ended, own⟩ := completion
  have after : t.Valid ∧ t.heap.Roomy := by
    exact ⟨invariant valid_step led sound.1, invariant roomy_step led sound.2⟩
  exact ⟨more, t, led, ended after.1 after.2, own⟩

/-- For every delegate and either discipline, calls and their completions enter no more than nine
sections each, and in no state that a run can come to are they stuck: without another call, another
completion or another cap, all of them can return. -/
theorem nobody_stuck (d : Delegate Ctx δ) (discipline : Discipline) (delegate : δ)
    (es : List (Event Ctx)) (s : State Ctx δ)
    (ran : run (step d discipline) (start delegate) es = some s) :
    es.countP advances ≤ 9 * es.countP arrives ∧
      ∃ more t, run (step d discipline) s more = some t ∧ t.Outside ∧
        ∀ e ∈ more, advances e = true :=
  ⟨countP_advances_le ran, exists_outside ran⟩
end State
end

/-- A caller parks behind a full delegate. -/
def oneBehind : List (Event Unit) :=
  [.tryAcquire (), .advance 0 {}, .advance 0 {}, .advance 0 {}, .tryAcquire (), .advance 1 {},
    .advance 1 {}]

theorem oneBehind_gets_out : ∃ s more t,
    run (State.step (simpleDelegate fun _ => false) (.lifo 1))
      (State.start (State.initial Unit 1).delegate) oneBehind = some s ∧ ¬ s.Outside ∧
    run (State.step (simpleDelegate fun _ => false) (.lifo 1)) s more = some t ∧ t.Outside := by
  have ended : (run (State.step (simpleDelegate fun _ => false) (.lifo 1))
      (State.start (State.initial Unit 1).delegate) oneBehind).map (fun s => decide s.Outside) =
        some false := by decide +kernel
  obtain ⟨s, ran, inside⟩ := Option.map_eq_some_iff.mp ended
  obtain ⟨_, more, t, led, outside, _⟩ := State.nobody_stuck _ _ _ oneBehind s ran
  exact ⟨s, more, t, ran, of_decide_eq_false inside, led, outside⟩
end BlockingLimiter
end Limen
