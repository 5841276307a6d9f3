import Limen.AbstractLimiter.Steps

/-! The same run without its bypassed calls. Deleting them deletes what is done to their
guards as well, and the calls that remain are numbered anew. -/
namespace Limen

/-- What is left of an operation when the guards that `gone` selects were never made. Such
a guard assigned over another only ends that one, and a guard assigned over such a one is
constructed in its place. -/
def GuardOp.remaining (gone : Nat → Bool) : GuardOp → List GuardOp
  | .moveConstruct dst src => if gone src then [] else [.moveConstruct dst src]
  | .moveAssign dst src =>
    match gone dst, gone src with
    | true, true => []
    | true, false => [.moveConstruct dst src]
    | false, true => [.destroy dst]
    | false, false => [.moveAssign dst src]
  | .complete addr status => if gone addr then [] else [.complete addr status]
  | .destroy addr => if gone addr then [] else [.destroy addr]

variable {L : Type}

def Completion.renumber (number : Nat → Nat) (call : Completion L) : Completion L :=
  { call with id := number call.id }

def Completion.limited (call : Completion L) : Bool := !call.slot.bypassed

namespace SlotGuard

def renumber (number : Nat → Nat) (g : SlotGuard L) : SlotGuard L := { g with id := number g.id }

def limited (g : SlotGuard L) : Bool := !g.bypassed

theorem renumber_notify (number : Nat → Nat) (g : SlotGuard L) (status : CompletionStatus) :
    (g.renumber number).notify status = (g.notify status).map (.renumber number) := by
  obtain ⟨limiter, _, _, _, _, completed, _⟩ := g
  cases limiter <;> cases completed <;> rfl

theorem renumber_complete (number : Nat → Nat) (g : SlotGuard L) (status : CompletionStatus) :
    (g.renumber number).complete status =
      ((g.complete status).1.renumber number, (g.complete status).2.map (.renumber number)) := by
  obtain ⟨limiter, _, _, _, _, completed, _⟩ := g
  cases limiter <;> cases completed <;> rfl

theorem complete_bypassed (g : SlotGuard L) (status : CompletionStatus) :
    (g.complete status).1.bypassed = g.bypassed := by
  obtain ⟨limiter, _, _, _, _, completed, _⟩ := g
  cases limiter <;> cases completed <;> rfl

theorem complete_id (g : SlotGuard L) (status : CompletionStatus) :
    (g.complete status).1.id = g.id := by
  obtain ⟨limiter, _, _, _, _, completed, _⟩ := g
  cases limiter <;> cases completed <;> rfl

/-- The limiter hears of a bypassed slot only from a bypassed guard. -/
theorem notify_filter (g : SlotGuard L) (status : CompletionStatus) :
    (g.notify status).filter Completion.limited = if g.limited then g.notify status else none := by
  obtain ⟨limiter, _, _, _, bypassed, completed, _⟩ := g
  cases limiter <;> cases completed <;> cases bypassed <;> rfl
end SlotGuard

namespace Heap
variable {h h' : Heap L} {op : GuardOp} {completion : Option (Completion L)} {number : Nat → Nat}
  {addr dst src : Nat} {g : SlotGuard L}

def onBypassed (h : Heap L) (addr : Nat) : Bool := (h addr).any SlotGuard.bypassed

/-- The guards of the calls that remain, under the numbers that these have then. -/
def limited (number : Nat → Nat) (h : Heap L) : Heap L := fun addr =>
  ((h addr).filter SlotGuard.limited).map (.renumber number)

theorem onBypassed_eq (present : h addr = some g) : h.onBypassed addr = g.bypassed := by
  rw [onBypassed, present]
  rfl

theorem limited_none (absent : h addr = none) : h.limited number addr = none := by
  rw [limited, absent]
  rfl

theorem limited_congr {number' : Nat → Nat}
    (same : ∀ addr g, h addr = some g → number g.id = number' g.id) :
    h.limited number = h.limited number' := by
  funext addr
  cases present : h addr with
  | none => rw [limited_none present, limited_none present]
  | some g =>
    have renumbered : g.renumber number = g.renumber number' := by
      rw [SlotGuard.renumber, same addr g present]
      rfl
    simp only [limited, present, Option.filter]
    split
    · rw [Option.map_some, Option.map_some, renumbered]
    · rfl

theorem limited_bypassed (present : h addr = some g) (bypassed : g.bypassed = true) :
    h.limited number addr = none := by
  simp [limited, present, SlotGuard.limited, bypassed]

theorem limited_plain (present : h addr = some g) (plain : g.bypassed = false) :
    h.limited number addr = some (g.renumber number) := by
  simp [limited, present, SlotGuard.limited, plain]

theorem limited_update_none (number : Nat → Nat) (h : Heap L) (addr : Nat) :
    Heap.limited number (Function.update h addr none) =
      Function.update (h.limited number) addr none := by
  funext other
  by_cases here : other = addr
  · subst here
    simp [limited]
  · simp [limited, here]

theorem limited_update_plain (number : Nat → Nat) (h : Heap L) (addr : Nat)
    (plain : g.bypassed = false) :
    Heap.limited number (Function.update h addr (some g)) =
      Function.update (h.limited number) addr (some (g.renumber number)) := by
  funext other
  by_cases here : other = addr
  · subst here
    simp [limited, SlotGuard.limited, plain]
  · simp [limited, here]

/-- A bypassed guard at an address is as good as none. -/
theorem limited_update_bypassed (number : Nat → Nat) (h : Heap L) (addr : Nat)
    (bypassed : g.bypassed = true) :
    Heap.limited number (Function.update h addr (some g)) =
      Heap.limited number (Function.update h addr none) := by
  funext other
  by_cases here : other = addr
  · subst here
    simp [limited, SlotGuard.limited, bypassed]
  · simp [limited, here]

theorem limited_erase (absent : h.limited number addr = none) :
    Heap.limited number (Function.update h addr none) = h.limited number := by
  rw [limited_update_none, ← absent, Function.update_eq_self]

theorem limited_move (plain : g.bypassed = false) :
    (h.move dst src g).limited number = (h.limited number).move dst src (g.renumber number) := by
  have moved : g.movedFrom.bypassed = false := plain
  rw [move, limited_update_plain _ _ _ moved, limited_update_plain _ _ _ plain, move]
  rfl

theorem limited_move_bypassed (present : h src = some g) (bypassed : g.bypassed = true) :
    (h.move dst src g).limited number = Heap.limited number (Function.update h dst none) := by
  have moved : g.movedFrom.bypassed = true := bypassed
  have absent : Heap.limited number (Function.update h dst none) src = none := by
    by_cases same : src = dst
    · simp [limited, same]
    · have unseen : h.limited number src = none := limited_bypassed present bypassed
      rw [limited_update_none, Function.update_of_ne same, unseen]
  rw [move, limited_update_bypassed _ _ _ moved, limited_update_none,
    limited_update_bypassed _ _ _ bypassed, ← limited_update_none, limited_erase absent]

theorem notify_limited (g : SlotGuard L) (status : CompletionStatus) (plain : g.bypassed = false) :
    ((g.notify status).filter Completion.limited).map (.renumber number) =
      (g.renumber number).notify status := by
  rw [g.notify_filter, SlotGuard.limited, plain, SlotGuard.renumber_notify]
  rfl

theorem notify_bypassed (g : SlotGuard L) (status : CompletionStatus) (bypassed : g.bypassed = true) :
    (g.notify status).filter Completion.limited = none := by
  rw [g.notify_filter, SlotGuard.limited, bypassed]
  rfl

/-- The remaining operation does to the remaining guards what the operation does to them,
and the limiter hears the same of them. -/
theorem apply_remaining (number : Nat → Nat) (applied : h.apply op = some (h', completion)) :
    (op.remaining h.onBypassed = [] ∧ h'.limited number = h.limited number ∧
        completion.filter Completion.limited = none) ∨
      ∃ op', op.remaining h.onBypassed = [op'] ∧ (h.limited number).apply op' =
        some (h'.limited number, (completion.filter Completion.limited).map (.renumber number)) := by
  cases op with
  | moveConstruct dst src =>
    simp only [apply] at applied
    split at applied
    case h_2 => contradiction
    rename_i other free present
    cases applied
    simp only [GuardOp.remaining, onBypassed_eq present]
    cases bypassed : other.bypassed with
    | true =>
      refine .inl ⟨rfl, ?_, rfl⟩
      rw [limited_move_bypassed present bypassed, limited_erase (limited_none free)]
    | false =>
      refine .inr ⟨_, rfl, ?_⟩
      simp only [apply, limited_none free, limited_plain present bypassed, limited_move bypassed]
      rfl
  | moveAssign dst src =>
    simp only [apply] at applied
    split at applied
    case h_2 => contradiction
    rename_i g other there present
    simp only [GuardOp.remaining, onBypassed_eq present, onBypassed_eq there]
    split at applied
    · rename_i same
      subst same
      cases applied
      obtain rfl : g = other := Option.some.inj (there.symm.trans present)
      cases bypassed : g.bypassed with
      | true => exact .inl ⟨rfl, rfl, rfl⟩
      | false =>
        refine .inr ⟨_, rfl, ?_⟩
        simp [apply, limited_plain present bypassed]
    · rename_i apart
      cases applied
      cases replaced : g.bypassed with
      | false =>
        refine .inr ?_
        cases bypassed : other.bypassed with
        | false =>
          refine ⟨_, rfl, ?_⟩
          simp only [apply, limited_plain present bypassed, limited_plain there replaced,
            if_neg apart, limited_move bypassed, notify_limited _ _ replaced]
        | true =>
          -- What is left of the assignment is the end of the guard it replaces.
          refine ⟨_, rfl, ?_⟩
          rw [apply, limited_plain there replaced, limited_move_bypassed present bypassed,
            limited_update_none, notify_limited _ _ replaced]
          rfl
      | true =>
        cases bypassed : other.bypassed with
        | false =>
          -- The guard that it replaces is left out, so the assignment becomes a construction.
          refine .inr ⟨_, rfl, ?_⟩
          simp only [apply, limited_plain present bypassed, limited_bypassed there replaced,
            limited_move bypassed, notify_bypassed _ _ replaced]
          rfl
        | true =>
          refine .inl ⟨rfl, ?_, notify_bypassed _ _ replaced⟩
          rw [limited_move_bypassed present bypassed, limited_erase (limited_bypassed there replaced)]
  | complete addr status =>
    obtain ⟨g, present, changed⟩ := Option.map_eq_some_iff.mp applied
    cases changed
    simp only [GuardOp.remaining, onBypassed_eq present]
    cases bypassed : g.bypassed with
    | true =>
      have still : (g.complete status).1.bypassed = true := by rw [g.complete_bypassed, bypassed]
      refine .inl ⟨rfl, ?_, ?_⟩
      · rw [limited_update_bypassed _ _ _ still, limited_erase (limited_bypassed present bypassed)]
      · rw [g.complete_snd, notify_bypassed _ _ bypassed]
    | false =>
      have still : (g.complete status).1.bypassed = false := by rw [g.complete_bypassed, bypassed]
      refine .inr ⟨_, rfl, ?_⟩
      rw [apply, limited_plain present bypassed, limited_update_plain _ _ _ still, g.complete_snd,
        notify_limited _ _ bypassed, Option.map_some, SlotGuard.renumber_complete,
        SlotGuard.renumber_notify, g.complete_snd]
  | destroy addr =>
    obtain ⟨g, present, changed⟩ := Option.map_eq_some_iff.mp applied
    cases changed
    simp only [GuardOp.remaining, onBypassed_eq present]
    cases bypassed : g.bypassed with
    | true =>
      exact .inl ⟨rfl, limited_erase (limited_bypassed present bypassed),
        notify_bypassed _ _ bypassed⟩
    | false =>
      refine .inr ⟨_, rfl, ?_⟩
      rw [apply, limited_plain present bypassed, limited_update_none, notify_limited _ _ bypassed]
      rfl

theorem limited_construct_bypassed {id : Nat} {slot : Slot L} (bypassed : slot.bypassed = true)
    (constructed : h.construct dst id (some slot) = some h') :
    h'.limited number = h.limited number := by
  simp only [construct, make] at constructed
  split at constructed
  · rename_i free
    cases constructed
    rw [limited_update_bypassed _ _ _ bypassed, limited_erase (limited_none free)]
  · contradiction

theorem limited_construct {id : Nat} {made : Option (Slot L)}
    (plain : ∀ slot, made = some slot → slot.bypassed = false)
    (constructed : h.construct dst id made = some h') :
    (h.limited number).construct dst (number id) made = some (h'.limited number) := by
  cases made with
  | none =>
    cases constructed
    rfl
  | some slot =>
    simp only [construct, make] at constructed
    split at constructed
    · rename_i free
      cases constructed
      have unmarked : (SlotGuard.makeSlot id slot).bypassed = false := plain slot rfl
      rw [construct, make, limited_none free, limited_update_plain _ _ _ unmarked]
      rfl
    · contradiction

/-- Guards keep the numbers they were made with. -/
theorem apply_ids (applied : h.apply op = some (h', completion)) (present : h' addr = some g) :
    ∃ before made, h before = some made ∧ made.id = g.id := by
  have moved {dst src : Nat} {other : SlotGuard L} (there : h src = some other)
      (now : h.move dst src other addr = some g) : ∃ before made, h before = some made ∧
        made.id = g.id := by
    simp only [move, Function.update_apply] at now
    split at now
    · cases now
      exact ⟨src, other, there, rfl⟩
    · split at now
      · cases now
        exact ⟨src, g, there, rfl⟩
      · exact ⟨addr, g, now, rfl⟩
  cases op with
  | moveConstruct dst src =>
    simp only [apply] at applied
    split at applied
    · cases applied
      exact moved (by assumption) present
    · contradiction
  | moveAssign dst src =>
    simp only [apply] at applied
    split at applied
    · split at applied
      · cases applied
        exact ⟨addr, g, present, rfl⟩
      · cases applied
        exact moved (by assumption) present
    · contradiction
  | complete at' status =>
    obtain ⟨old, there, changed⟩ := Option.map_eq_some_iff.mp applied
    cases changed
    rw [Function.update_apply] at present
    split at present
    · cases present
      exact ⟨at', old, there, (old.complete_id status).symm⟩
    · exact ⟨addr, g, present, rfl⟩
  | destroy at' =>
    obtain ⟨old, there, changed⟩ := Option.map_eq_some_iff.mp applied
    cases changed
    rw [Function.update_apply] at present
    split at present
    · contradiction
    · exact ⟨addr, g, present, rfl⟩
end Heap

namespace AbstractLimiter
open Transition
variable {Ctx σ π : Type} {l : Limiter Ctx σ π} {number : Nat → Nat}

def Counters.limited (c : Counters σ) : Counters σ :=
  { c with outcomeCounts := Function.update c.outcomeCounts .bypassed 0 }

def Phase.renumber (number : Nat → Nat) : Phase π → Phase π
  | .decrementing call => .decrementing (call.renumber number)
  | .releasingPartition call => .releasingPartition (call.renumber number)
  | .counting call => .counting (call.renumber number)
  | .sampling call => .sampling (call.renumber number)
  | .completed call => .completed (call.renumber number)
  | phase => phase

def Phase.completion? : Phase π → Option (Completion Unit)
  | .decrementing call | .releasingPartition call | .counting call | .sampling call
  | .completed call => some call
  | _ => none

/-- What the caller of `TryAcquire` has been told, once the call has returned. -/
def Phase.verdict : Phase π → Option Bool
  | .bypassing | .acquiring _ | .rejecting | .admitted _ => none
  | .rejected => some false
  | .bypassed | .held _ | .decrementing _ | .releasingPartition _ | .counting _ | .sampling _
  | .completed _ => some true

def Request.renumber (number : Nat → Nat) (r : Request Ctx π) : Request Ctx π :=
  r.moveTo (r.phase.renumber number)

def Limiter.limits (l : Limiter Ctx σ π) (r : Request Ctx π) : Bool := !l.bypassPredicate r.context

namespace State
variable {s t : State Ctx σ π} {e : Event Ctx} {es : List (Event Ctx)} {limit : Int}

/-- The number a call has among those that remain. -/
def rank (l : Limiter Ctx σ π) (s : State Ctx σ π) : Nat → Nat := Pool.rank l.limits s.requests

/-- What remains of an event that is taken in `s`. -/
def remaining (l : Limiter Ctx σ π) (s : State Ctx σ π) : Event Ctx → List (Event Ctx)
  | .tryAcquire context => if l.bypassPredicate context then [] else [.tryAcquire context]
  | .advance call input =>
    if s.requests[call]?.any l.limits then [.advance (s.rank l call) input] else []
  | .guard op => (op.remaining s.heap.onBypassed).map .guard
  | .setLimit value => [.setLimit value]
  | .notify => [.notify]

/-- The run without its bypassed calls. -/
def withoutBypassed (l : Limiter Ctx σ π) (limit : Int) (es : List (Event Ctx)) : List (Event Ctx) :=
  observe (step l) (fun s e _ => s.remaining l e) (start l.gate limit) es

/-- Where the run without its bypassed calls is when the run is at `s`. -/
def limited (l : Limiter Ctx σ π) (s : State Ctx σ π) : State Ctx σ π where
  toCounters := s.toCounters.limited
  publishing := s.publishing
  requests := (s.requests.filter l.limits).map (.renumber (s.rank l))
  heap := s.heap.limited (s.rank l)
end State

theorem Counters.limited_count (c : Counters σ) {status : Status} (other : status ≠ .bypassed) :
    (c.count status).limited = c.limited.count status := by
  simp only [limited, count, Function.update_of_ne other]
  rw [Function.update_comm other.symm]

theorem Counters.limited_bypass (c : Counters σ) : (c.count .bypassed).limited = c.limited := by
  simp only [limited, count, Function.update_idem]

theorem Progress.renumber_phase (progress : Progress π) :
    progress.phase.renumber number = progress.phase := by
  rcases progress with _ | _ | _ <;> rfl

theorem toOutcomeStatus_ne (status : CompletionStatus) : toOutcomeStatus status ≠ .bypassed := by
  cases status <;> decide

/-- A call that is not bypassed reads and writes nothing that a bypassed one writes. -/
theorem advance_limited (number : Nat → Nat) {gate : Gate Ctx σ π} {c c' : Counters σ} {input : Input}
    {phase phase' : Phase π} {made : Option (Slot Unit)} (plain : phase.bypasses = false)
    (advanced : phase.advance gate c input = some (c', phase', made)) :
    (phase.renumber number).advance gate c.limited input =
        some (c'.limited, phase'.renumber number, made) ∧
      ∀ slot, made = some slot → slot.bypassed = false := by
  cases phase <;> simp only [Phase.advance, Option.some.injEq, Prod.mk.injEq, reduceCtorEq]
    at advanced <;> obtain ⟨rfl, rfl, rfl⟩ := advanced
  case bypassing => contradiction
  case acquiring pc =>
    rw [Progress.renumber_phase]
    exact ⟨rfl, by simp⟩
  case rejecting =>
    have other : Status.rejected ≠ .bypassed := by decide
    rw [c.limited_count other]
    exact ⟨rfl, by simp⟩
  case counting call =>
    rw [c.limited_count (toOutcomeStatus_ne call.status), apply_ite (Phase.renumber number)]
    exact ⟨rfl, by simp⟩
  case admitted result =>
    refine ⟨rfl, ?_⟩
    rintro slot ⟨⟩
    rfl
  all_goals exact ⟨rfl, by simp⟩

theorem Phase.renumber_congr {number' : Nat → Nat} {phase : Phase π}
    (same : ∀ call, phase.completion? = some call → number call.id = number' call.id) :
    phase.renumber number = phase.renumber number' := by
  cases phase <;> simp only [Phase.renumber, Completion.renumber]
  all_goals rw [same _ rfl]

/-- A bypassed call makes one operation: it counts itself and returns a guard. -/
theorem advance_bypassing {gate : Gate Ctx σ π} {c c' : Counters σ} {input : Input}
    {phase phase' : Phase π} {made : Option (Slot Unit)} (bypasses : phase.bypasses = true)
    (advanced : phase.advance gate c input = some (c', phase', made)) :
    c' = c.count .bypassed ∧ phase' = .bypassed ∧ made = some bypassSlot := by
  cases phase with
  | bypassing =>
    cases advanced
    exact ⟨rfl, rfl, rfl⟩
  | _ => contradiction

theorem advance_completion? {gate : Gate Ctx σ π} {c c' : Counters σ} {input : Input}
    {phase phase' : Phase π} {made : Option (Slot Unit)} {call : Completion Unit}
    (advanced : phase.advance gate c input = some (c', phase', made))
    (completing : phase'.completion? = some call) : phase.completion? = some call := by
  cases phase <;> simp only [Phase.advance, Option.some.injEq, Prod.mk.injEq, reduceCtorEq]
    at advanced <;> obtain ⟨rfl, rfl, rfl⟩ := advanced
  case acquiring pc =>
    rcases acquired : (gate.acquire c.limit c.toGauge pc input.spurious).2 with _ | _ | _ <;>
      rw [acquired] at completing <;> contradiction
  case counting held =>
    split at completing <;> exact completing
  all_goals first | contradiction | exact completing

namespace State
variable {s t : State Ctx σ π} {e : Event Ctx} {es : List (Event Ctx)} {limit : Int}

/-- `OnSlotComplete` returns at once for a bypassed slot. -/
theorem onSlotComplete_filter (s : State Ctx σ π) (completion : Option (Completion Unit)) :
    s.onSlotComplete completion = s.onSlotComplete (completion.filter Completion.limited) := by
  cases completion with
  | none => rfl
  | some call =>
    cases bypassed : call.slot.bypassed <;>
      simp [onSlotComplete, Completion.limited, Option.filter_some, bypassed]

theorem onSlotComplete_length (s : State Ctx σ π) (completion : Option (Completion Unit)) :
    (s.onSlotComplete completion).length = s.requests.length := by
  cases completion with
  | none => rfl
  | some call =>
    rw [onSlotComplete]
    split
    · rfl
    · exact List.length_modify ..

/-- A completion has the number of the call whose slot it completes. -/
theorem run_numbered (ran : run (step l) (start l.gate limit) es = some s) {i : Nat}
    {r : Request Ctx π} {call : Completion Unit} (found : s.requests[i]? = some r)
    (completing : r.phase.completion? = some call) : call.id = i := by
  refine forall_requests
    (Q := fun i r => ∀ call, r.phase.completion? = some call → call.id = i) ?_ ?_ ran found call
    completing
  · intro i context call entering
    rcases l.enter_phase context with phase | phase <;>
      rw [phase] at entering <;> contradiction
  · intro i r c e c' phase numbered moved call completing
    rcases moved.cases with ⟨input, made, _, advanced⟩ | ⟨op, call', _, own, _, _, rfl⟩
    · exact numbered call (advance_completion? advanced completing)
    · cases completing
      exact own

theorem construct_ids {h h' : Heap Unit} {dst id addr : Nat} {made : Option (Slot Unit)}
    {g : SlotGuard Unit} (constructed : h.construct dst id made = some h')
    (present : h' addr = some g) : g.id = id ∨ h addr = some g := by
  cases made with
  | none =>
    cases constructed
    exact .inr present
  | some slot =>
    simp only [Heap.construct, Heap.make] at constructed
    split at constructed
    · cases constructed
      rw [Function.update_apply] at present
      split at present
      · cases present
        exact .inl rfl
      · exact .inr present
    · contradiction

/-- Every guard was made by a call that has entered. -/
theorem run_guarded (ran : run (step l) (start l.gate limit) es = some s) {addr : Nat}
    {g : SlotGuard Unit} (present : s.heap addr = some g) : g.id < s.requests.length := by
  refine invariant
    (P := fun s => ∀ addr g, s.heap addr = some g → g.id < s.requests.length) ?_ ran (by simp [start])
    addr g present
  intro s e t guarded stepped addr g present
  cases e with
  | tryAcquire context =>
    cases stepped
    rw [List.length_append]
    exact Nat.lt_add_right _ (guarded addr g present)
  | advance i input =>
    obtain ⟨r, c, phase, made, heap, found, _, constructed, rfl⟩ := step_advance stepped
    rw [List.length_modify]
    rcases construct_ids constructed present with rfl | before
    · exact (List.getElem?_eq_some_iff.mp found).1
    · exact guarded addr g before
  | guard op =>
    obtain ⟨heap, completion, applied, rfl⟩ := step_guard stepped
    obtain ⟨before, made, there, same⟩ := Heap.apply_ids applied present
    rw [← same, onSlotComplete_length]
    exact guarded before made there
  | setLimit value =>
    simp only [step] at stepped
    split at stepped
    · contradiction
    · split at stepped <;> cases stepped <;> exact guarded addr g present
  | notify =>
    simp only [step] at stepped
    split at stepped
    · contradiction
    · split at stepped <;> cases stepped <;> exact guarded addr g present

theorem rank_moveTo {i : Nat} {r : Request Ctx π} (l : Limiter Ctx σ π) (phase : Phase π)
    {requests : List (Request Ctx π)} (found : requests[i]? = some r) :
    Pool.rank l.limits (requests.modify i (.moveTo phase)) = Pool.rank l.limits requests :=
  funext fun j => Pool.rank_modify l.limits _ found rfl j

/-- The calls that remain when one of them moves on. -/
theorem limited_moveTo {i : Nat} {r : Request Ctx π} (number : Nat → Nat) (phase : Phase π)
    {requests : List (Request Ctx π)} (found : requests[i]? = some r) (limits : l.limits r = true) :
    ((requests.modify i (.moveTo phase)).filter l.limits).map (Request.renumber number) =
      ((requests.filter l.limits).map (Request.renumber number)).modify
        (Pool.rank l.limits requests i) (Request.moveTo (phase.renumber number)) := by
  rw [Pool.filter_modify_selected found limits limits]
  exact Pool.map_modify (Pool.getElem?_filter_rank found limits) rfl

theorem limited_tryAcquire (ran : run (step l) (start l.gate limit) es = some s) (context : Ctx) :
    limited l { s with requests := s.requests ++ [l.enter context] } =
      { s.limited l with
        requests := (s.limited l).requests ++
          if l.bypassPredicate context then [] else [l.enter context] } := by
  have same (j : Nat) (within : j ≤ s.requests.length) :
      Pool.rank l.limits (s.requests ++ [l.enter context]) j = Pool.rank l.limits s.requests j :=
    Pool.rank_concat _ _ within
  have heap : s.heap.limited (Pool.rank l.limits (s.requests ++ [l.enter context])) =
      s.heap.limited (Pool.rank l.limits s.requests) :=
    Heap.limited_congr fun addr g present => same _ (Nat.le_of_lt (run_guarded ran present))
  have requests : (s.requests.filter l.limits).map
      (Request.renumber (Pool.rank l.limits (s.requests ++ [l.enter context]))) =
        (s.requests.filter l.limits).map (Request.renumber (Pool.rank l.limits s.requests)) := by
    apply List.map_congr_left
    intro r member
    obtain ⟨i, found⟩ := List.mem_iff_getElem?.mp (List.mem_of_mem_filter member)
    have within := (List.getElem?_eq_some_iff.mp found).1
    rw [Request.renumber, Request.renumber, Phase.renumber_congr]
    intro call completing
    rw [run_numbered ran found completing]
    exact same i (Nat.le_of_lt within)
  have entered : ([l.enter context].filter l.limits).map
      (Request.renumber (Pool.rank l.limits (s.requests ++ [l.enter context]))) =
        if l.bypassPredicate context then [] else [l.enter context] := by
    cases bypassed : l.bypassPredicate context <;>
      simp [Limiter.limits, Limiter.enter, bypassed, Request.renumber, Request.moveTo, Phase.renumber]
  simp only [limited, rank, heap, List.filter_append, List.map_append, requests, entered]

theorem limited_advance {i : Nat} {input : Input}
    (ran : run (step l) (start l.gate limit) es = some s)
    (stepped : s.step l (.advance i input) = some t) :
    run (step l) (s.limited l) (s.remaining l (.advance i input)) = some (t.limited l) := by
  obtain ⟨r, c, phase, made, heap, found, advanced, constructed, rfl⟩ := step_advance stepped
  have bypasses := run_bypasses ran found
  have limits : s.requests[i]?.any l.limits = !l.bypassPredicate r.context := by
    rw [found]
    rfl
  simp only [remaining, limits]
  simp only [limited, rank, rank_moveTo l phase found]
  cases bypassed : l.bypassPredicate r.context with
  | true =>
    have hidden : l.limits r = false := by rw [Limiter.limits, bypassed]; rfl
    obtain ⟨rfl, rfl, rfl⟩ := advance_bypassing (bypasses.trans bypassed) advanced
    rw [Pool.filter_modify_other found hidden hidden, Counters.limited_bypass,
      Heap.limited_construct_bypassed rfl constructed]
    rfl
  | false =>
    have plain : l.limits r = true := by rw [Limiter.limits, bypassed]; rfl
    obtain ⟨advanced', slotted⟩ :=
      advance_limited (Pool.rank l.limits s.requests) (bypasses.trans bypassed) advanced
    have there := Pool.getElem?_filter_rank found plain
    simp only [Bool.not_false, if_true, run_single, step, List.getElem?_map, there, Option.map_some,
      Option.bind_eq_bind, Option.bind_some, Request.renumber, Request.moveTo, advanced',
      Heap.limited_construct slotted constructed]
    rw [limited_moveTo _ _ found plain]

/-- The completion of a slot that is not bypassed, among the calls that remain. -/
theorem limited_complete {op : GuardOp} {heap : Heap Unit} {call : Completion Unit}
    (ran : run (step l) (start l.gate limit) es = some s)
    (applied : s.heap.apply op = some (heap, some call)) (plain : call.slot.bypassed = false) :
    limited l { s with heap, requests := s.onSlotComplete (some call) } =
      { s.limited l with
        heap := heap.limited (s.rank l)
        requests := (s.limited l).onSlotComplete (some (call.renumber (s.rank l))) } := by
  obtain ⟨r, found, atHeld⟩ := completion_held (run_valid ran) applied plain
  have limits : l.limits r = true := by
    rw [Limiter.limits, ← run_bypasses ran found, atHeld]
    rfl
  have plain' : ¬ (call.renumber (s.rank l)).slot.bypassed = true := by
    rw [Completion.renumber, plain]
    decide
  have heard : s.onSlotComplete (some call) =
      s.requests.modify call.id (.moveTo (.decrementing call)) := if_neg (by rw [plain]; decide)
  rw [heard, onSlotComplete, if_neg plain']
  simp only [limited, rank, rank_moveTo l _ found, limited_moveTo _ _ found limits]
  rfl

theorem limited_guard {op : GuardOp} (ran : run (step l) (start l.gate limit) es = some s)
    (stepped : s.step l (.guard op) = some t) :
    run (step l) (s.limited l) (s.remaining l (.guard op)) = some (t.limited l) := by
  obtain ⟨heap, completion, applied, rfl⟩ := step_guard stepped
  have reached : limited l { s with heap, requests := s.onSlotComplete completion } =
      { s.limited l with
        heap := heap.limited (s.rank l)
        requests := (s.limited l).onSlotComplete
          ((completion.filter Completion.limited).map (.renumber (s.rank l))) } := by
    rw [onSlotComplete_filter]
    cases heard : completion.filter Completion.limited with
    | none => rfl
    | some call =>
      obtain ⟨rfl, plain⟩ := Option.filter_eq_some_iff.mp heard
      exact limited_complete ran applied (by simpa [Completion.limited] using plain)
  rw [remaining, reached]
  rcases Heap.apply_remaining (s.rank l) applied with ⟨gone, same, silent⟩ | ⟨op', left, applied'⟩
  · rw [gone, same, silent]
    rfl
  · have applied'' : (s.limited l).heap.apply op' = _ := applied'
    rw [left, List.map_singleton, run_single]
    simp only [step, applied'', Option.bind_eq_bind, Option.bind_some]

theorem step_limited (ran : run (step l) (start l.gate limit) es = some s)
    (stepped : s.step l e = some t) :
    run (step l) (s.limited l) (s.remaining l e) = some (t.limited l) := by
  cases e with
  | tryAcquire context =>
    cases stepped
    rw [← Limiter.enter, limited_tryAcquire ran, remaining]
    split
    · rw [List.append_nil]
      rfl
    · rw [run_single, step]
      rfl
  | advance i input => exact limited_advance ran stepped
  | guard op => exact limited_guard ran stepped
  | setLimit value =>
    rw [remaining, run_single]
    simp only [step] at stepped
    split at stepped
    · contradiction
    · rename_i idle
      have idle' : (s.limited l).publishing = none := idle
      simp only [step, idle']
      split at stepped <;> cases stepped
      · exact if_pos (by assumption)
      · exact if_neg (by assumption)
  | notify =>
    rw [remaining, run_single]
    simp only [step] at stepped
    split at stepped
    · contradiction
    · rename_i value stores publishing
      have publishing' : (s.limited l).publishing = some (value, stores) := publishing
      simp only [step, publishing']
      split at stepped <;> cases stepped
      · exact if_pos (by assumption)
      · exact if_neg (by assumption)

theorem run_limited (ran : run (step l) (start l.gate limit) es = some s) :
    run (step l) (start l.gate limit) (withoutBypassed l limit es) = some (s.limited l) := by
  refine history (P := fun es s => run (step l) (start l.gate limit) (withoutBypassed l limit es) =
    some (s.limited l)) ?_ ?_ ran
  · have same : (start l.gate limit).limited l = start l.gate limit := by
      simp only [limited, start, Counters.limited, List.filter_nil, List.map_nil,
        Function.update_eq_self]
      rfl
    rw [same]
    rfl
  · intro es s e t before ih stepped
    rw [withoutBypassed, observe_concat before stepped, run_append_eq_some]
    exact ⟨s.limited l, ih, step_limited before stepped⟩

/-- Two states that the calls of the second, all of which are limited, cannot tell apart. -/
structure Indistinguishable (l : Limiter Ctx σ π) (s t : State Ctx σ π) : Prop where
  verdicts : t.requests.map (fun r => (r.context, r.phase.verdict)) =
    (s.requests.filter fun r => !l.bypassPredicate r.context).map fun r =>
      (r.context, r.phase.verdict)
  inflight : t.inflight = s.inflight
  sub : t.sub = s.sub
  limit : t.limit = s.limit
  samples : t.samples = s.samples
  outcomes : ∀ status, status ≠ .bypassed → t.outcomeCounts status = s.outcomeCounts status

/-- At every point of the run there is a point of the run without its bypassed calls that
cannot be told from it. -/
def BypassInvisible (l : Limiter Ctx σ π) (limit : Int) (es : List (Event Ctx)) : Prop :=
  ∀ before s, before <+: es → run (step l) (start l.gate limit) before = some s →
    withoutBypassed l limit before <+: withoutBypassed l limit es ∧
      ∃ t, run (step l) (start l.gate limit) (withoutBypassed l limit before) = some t ∧
        Indistinguishable l s t

theorem limited_indistinguishable (l : Limiter Ctx σ π) (s : State Ctx σ π) :
    Indistinguishable l s (s.limited l) where
  verdicts := by
    rw [limited, List.map_map]
    apply List.map_congr_left
    intro r _
    cases phase : r.phase <;>
      simp [Request.renumber, Request.moveTo, phase, Phase.renumber, Phase.verdict]
  inflight := rfl
  sub := rfl
  limit := rfl
  samples := rfl
  outcomes := fun _ other => Function.update_of_ne other _ _

theorem bypassInvisible (l : Limiter Ctx σ π) (limit : Int) (es : List (Event Ctx)) :
    BypassInvisible l limit es := by
  rintro before s ⟨after, rfl⟩ ran
  refine ⟨?_, s.limited l, run_limited ran, limited_indistinguishable l s⟩
  rw [withoutBypassed, withoutBypassed, observe_append ran]
  exact List.prefix_append _ _
end State
end AbstractLimiter
end Limen
