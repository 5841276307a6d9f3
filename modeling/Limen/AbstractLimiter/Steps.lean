import Limen.AbstractLimiter
import Limen.Pool
import Limen.SlotGuard.Ownership

/-! What a step can do, said once: a call enters, one call moves on, or a new cap is
published. Conservation laws and per-call facts follow by the two rules at the end. -/
namespace Limen.AbstractLimiter
open Transition
variable {Ctx σ π : Type}

/-- The guard a call has returned and, as far as the limiter knows, not completed. -/
def Phase.slot? : Phase π → Option (Slot Unit)
  | .held slot => some slot
  | .bypassed => some bypassSlot
  | _ => none

theorem Progress.slot?_phase (progress : Progress π) : progress.phase.slot? = none := by
  rcases progress with _ | _ | _ <;> rfl

theorem advance_slot? {gate : Gate Ctx σ π} {c c' : Counters σ} {input : Input}
    {phase phase' : Phase π} {made : Option (Slot Unit)}
    (advanced : phase.advance gate c input = some (c', phase', made)) :
    phase.slot? = none ∧ phase'.slot? = made ∧
      ∀ slot, phase' = .held slot → slot.bypassed = false := by
  cases phase <;> simp only [Phase.advance, Option.some.injEq, Prod.mk.injEq, reduceCtorEq]
    at advanced
  case acquiring pc =>
    obtain ⟨_, rfl, rfl⟩ := advanced
    refine ⟨rfl, Progress.slot?_phase _, fun slot atHeld => ?_⟩
    have free := Progress.slot?_phase (gate.acquire c.limit c.toGauge pc input.spurious).2
    rw [atHeld] at free
    contradiction
  case counting call =>
    obtain ⟨_, rfl, rfl⟩ := advanced
    split <;> simp [Phase.slot?]
  case admitted result =>
    obtain ⟨_, rfl, rfl⟩ := advanced
    refine ⟨rfl, rfl, ?_⟩
    rintro slot ⟨⟩
    rfl
  all_goals
    obtain ⟨_, rfl, rfl⟩ := advanced
    simp [Phase.slot?]

namespace State
variable {l : Limiter Ctx σ π} {s t : State Ctx σ π}

theorem step_advance {i : Nat} {input : Input} (stepped : s.step l (.advance i input) = some t) :
    ∃ r c phase made heap, s.requests[i]? = some r ∧
      r.phase.advance l.gate s.toCounters input = some (c, phase, made) ∧
      s.heap.construct input.addr i made = some heap ∧
      t = { s with toCounters := c, requests := s.requests.modify i (.moveTo phase), heap } := by
  simp only [step, Option.bind_eq_bind, Option.bind_eq_some_iff, Option.some.injEq] at stepped
  obtain ⟨r, found, ⟨c, phase, made⟩, advanced, heap, constructed, rfl⟩ := stepped
  exact ⟨r, c, phase, made, heap, found, advanced, constructed, rfl⟩

theorem step_guard {op : GuardOp} (stepped : s.step l (.guard op) = some t) :
    ∃ heap completion, s.heap.apply op = some (heap, completion) ∧
      t = { s with heap, requests := s.onSlotComplete completion } := by
  simp only [step, Option.bind_eq_bind, Option.bind_eq_some_iff, Option.some.injEq] at stepped
  obtain ⟨⟨heap, completion⟩, applied, rfl⟩ := stepped
  exact ⟨heap, completion, applied, rfl⟩

/-- The next operation of the call that entered last. -/
theorem step_last (c : Counters σ) (publishing : Option (Int × Nat))
    (requests : List (Request Ctx π)) (context : Ctx) (phase : Phase π) (heap : Heap Unit)
    (input : Input) :
    step l ⟨c, publishing, requests ++ [⟨context, phase⟩], heap⟩ (.advance requests.length input) =
      (phase.advance l.gate c input).bind fun (c', phase', made) =>
        (heap.construct input.addr requests.length made).map fun heap' =>
          ⟨c', publishing, requests ++ [⟨context, phase'⟩], heap'⟩ := by
  have found : (requests ++ [⟨context, phase⟩])[requests.length]? = some ⟨context, phase⟩ :=
    List.getElem?_concat_length ..
  have moved (phase' : Phase π) :
      (requests ++ [(⟨context, phase⟩ : Request Ctx π)]).modify requests.length (.moveTo phase') =
        requests ++ [⟨context, phase'⟩] := Pool.modify_concat _
  simp only [step, found, moved, Option.bind_eq_bind, Option.bind_some, Option.map_eq_bind]
  rfl

/-- Guards and calls agree on which slots are still to be completed. -/
structure Valid (s : State Ctx σ π) : Prop where
  exclusive : s.heap.owners.Exclusive
  owned : ∀ id slot, s.heap.owners.Holds id slot →
    ∃ r, s.requests[id]? = some r ∧ r.phase.slot? = some slot
  owns : ∀ id r slot, s.requests[id]? = some r → r.phase = .held slot →
    slot.bypassed = false ∧ s.heap.owners.Holds id slot

theorem start_valid (gate : Gate Ctx σ π) (limit : Int) : (start gate limit).Valid where
  exclusive := by
    intro a b owned other ha
    contradiction
  owned := by
    rintro id slot ⟨a, ha⟩
    contradiction
  owns := by
    intro id r slot found
    simp [start] at found

theorem construct_holds {h h' : Heap Unit} {dst id : Nat} {made : Option (Slot Unit)}
    (constructed : h.construct dst id made = some h') (other : Nat) (slot : Slot Unit) :
    h'.owners.Holds other slot ↔ h.owners.Holds other slot ∨ (other = id ∧ made = some slot) := by
  cases made with
  | none =>
    cases constructed
    simp
  | some new =>
    rw [Heap.make_holds constructed, Option.some.injEq, eq_comm (a := slot)]

theorem construct_exclusive {h h' : Heap Unit} {dst id : Nat} {made : Option (Slot Unit)}
    (exclusive : h.owners.Exclusive) (fresh : ∀ slot, ¬ h.owners.Holds id slot)
    (constructed : h.construct dst id made = some h') : h'.owners.Exclusive := by
  cases made with
  | none =>
    cases constructed
    exact exclusive
  | some slot => exact Heap.make_exclusive exclusive fresh constructed

theorem valid_advance {i : Nat} {input : Input} (valid : s.Valid)
    (stepped : s.step l (.advance i input) = some t) : t.Valid := by
  obtain ⟨r, c, phase, made, heap, found, advanced, constructed, rfl⟩ := step_advance stepped
  obtain ⟨free, guarded, limited⟩ := advance_slot? advanced
  have fresh : ∀ slot, ¬ s.heap.owners.Holds i slot := by
    intro slot held
    obtain ⟨r', found', slotted⟩ := valid.owned i slot held
    rw [found, Option.some.injEq] at found'
    rw [← found', free] at slotted
    contradiction
  have self := Pool.getElem?_modify_self (Request.moveTo phase) found
  constructor
  · exact construct_exclusive valid.exclusive fresh constructed
  · intro id slot held
    rcases (construct_holds constructed id slot).mp held with before | ⟨rfl, rfl⟩
    · obtain ⟨r', found', slotted⟩ := valid.owned id slot before
      have other : id ≠ i := by
        rintro rfl
        exact fresh slot before
      exact ⟨r', by rw [Pool.getElem?_modify_other _ other, found'], slotted⟩
    · exact ⟨_, self, guarded⟩
  · intro id r' slot found' atHeld
    rcases Pool.getElem?_modify_cases found found' with ⟨rfl, rfl⟩ | ⟨other, before⟩
    · obtain rfl : phase = .held slot := atHeld
      exact ⟨limited slot rfl, (construct_holds constructed id slot).mpr (.inr ⟨rfl, guarded.symm⟩)⟩
    · obtain ⟨plain, held⟩ := valid.owns id r' slot before atHeld
      exact ⟨plain, (construct_holds constructed id slot).mpr (.inl held)⟩

/-- A guard operation that reaches the limiter completes a slot that a call holds. -/
theorem completion_held {op : GuardOp} {heap : Heap Unit} {call : Completion Unit}
    (valid : s.Valid) (applied : s.heap.apply op = some (heap, some call))
    (limited : call.slot.bypassed = false) :
    ∃ r, s.requests[call.id]? = some r ∧ r.phase = .held call.slot := by
  rcases Heap.apply_holds valid.exclusive applied with ⟨silent, _⟩ | ⟨c, called, held, _⟩
  · contradiction
  · obtain rfl : call = c := by simpa using called
    obtain ⟨r, found, slotted⟩ := valid.owned _ _ held
    refine ⟨r, found, ?_⟩
    cases phase : r.phase <;> simp [phase, Phase.slot?] at slotted
    case bypassed =>
      rw [← slotted] at limited
      contradiction
    case held slot => rw [slotted]

theorem valid_guard {op : GuardOp} (valid : s.Valid) (stepped : s.step l (.guard op) = some t) :
    t.Valid := by
  obtain ⟨heap, completion, applied, rfl⟩ := step_guard stepped
  have exclusive : heap.owners.Exclusive := Heap.apply_exclusive valid.exclusive applied
  rcases Heap.apply_holds valid.exclusive applied with ⟨rfl, same⟩ | ⟨call, rfl, held, same⟩
  · refine ⟨exclusive, ?_, ?_⟩
    · intro id slot owned
      exact valid.owned id slot ((same id slot).mp owned)
    · intro id r slot found atHeld
      obtain ⟨plain, owned⟩ := valid.owns id r slot found atHeld
      exact ⟨plain, (same id slot).mpr owned⟩
  · by_cases bypassed : call.slot.bypassed
    · simp only [onSlotComplete, if_pos bypassed]
      refine ⟨exclusive, ?_, ?_⟩
      · intro id slot owned
        exact valid.owned id slot ((same id slot).mp owned).1
      · intro id r slot found atHeld
        obtain ⟨plain, owned⟩ := valid.owns id r slot found atHeld
        refine ⟨plain, (same id slot).mpr ⟨owned, ?_⟩⟩
        rintro rfl
        obtain ⟨r', found', slotted⟩ := valid.owned _ _ held
        rw [found, Option.some.injEq] at found'
        rw [← found', atHeld, Phase.slot?, Option.some.injEq] at slotted
        rw [slotted, bypassed] at plain
        contradiction
    · obtain ⟨r, found, atHeld⟩ := completion_held valid applied (by simpa using bypassed)
      simp only [onSlotComplete, if_neg bypassed]
      refine ⟨exclusive, ?_, ?_⟩
      · intro id slot owned
        obtain ⟨before, other⟩ := (same id slot).mp owned
        obtain ⟨r', found', slotted⟩ := valid.owned id slot before
        exact ⟨r', by rw [Pool.getElem?_modify_other _ other, found'], slotted⟩
      · intro id r' slot found' atHeld'
        rcases Pool.getElem?_modify_cases found found' with ⟨rfl, rfl⟩ | ⟨other, before⟩
        · simp [Request.moveTo] at atHeld'
        · obtain ⟨plain, owned⟩ := valid.owns id r' slot before atHeld'
          exact ⟨plain, (same id slot).mpr ⟨owned, other⟩⟩

theorem valid_step {e : Event Ctx} (valid : s.Valid) (stepped : s.step l e = some t) :
    t.Valid := by
  cases e with
  | tryAcquire context =>
    cases stepped
    refine ⟨valid.exclusive, ?_, ?_⟩
    · intro id slot owned
      obtain ⟨r, found, slotted⟩ := valid.owned id slot owned
      exact ⟨r, Pool.getElem?_concat_eq_some.mpr (.inl found), slotted⟩
    · intro id r slot found atHeld
      rcases Pool.getElem?_concat_eq_some.mp found with before | ⟨_, rfl⟩
      · exact valid.owns id r slot before atHeld
      · dsimp only at atHeld
        split at atHeld <;> contradiction
  | advance i input => exact valid_advance valid stepped
  | guard op => exact valid_guard valid stepped
  | setLimit value =>
    simp only [step] at stepped
    split at stepped
    · contradiction
    · split at stepped <;> cases stepped <;> exact ⟨valid.exclusive, valid.owned, valid.owns⟩
  | notify =>
    simp only [step] at stepped
    split at stepped
    · contradiction
    · split at stepped <;> cases stepped <;> exact ⟨valid.exclusive, valid.owned, valid.owns⟩
end State

/-- One call moves on: by an atomic operation of its own, or because a guard operation
completes its slot. -/
inductive Moves (gate : Gate Ctx σ π) (i : Nat) (c : Counters σ) :
    Event Ctx → Phase π → Counters σ → Phase π → Prop
  | advance {phase phase' : Phase π} {c' : Counters σ} {input : Input}
      {made : Option (Slot Unit)}
      (advanced : phase.advance gate c input = some (c', phase', made)) :
      Moves gate i c (.advance i input) phase c' phase'
  | complete (op : GuardOp) (call : Completion Unit) (own : call.id = i)
      (limited : call.slot.bypassed = false) :
      Moves gate i c (.guard op) (.held call.slot) c (.decrementing call)

theorem Moves.cases {gate : Gate Ctx σ π} {i : Nat} {c c' : Counters σ} {e : Event Ctx}
    {phase phase' : Phase π} (moved : Moves gate i c e phase c' phase') :
    (∃ input made, e = .advance i input ∧
        phase.advance gate c input = some (c', phase', made)) ∨
      ∃ op call, e = .guard op ∧ call.id = i ∧ phase = .held call.slot ∧ c' = c ∧
        phase' = .decrementing call := by
  cases moved with
  | advance advanced => exact .inl ⟨_, _, rfl, advanced⟩
  | complete op call own limited => exact .inr ⟨op, call, rfl, own, rfl, rfl, rfl⟩

/-- A bypassed call goes through `DoTryAcquire`'s first branch and through no other. -/
def Phase.bypasses : Phase π → Bool
  | .bypassing | .bypassed => true
  | _ => false

theorem moves_bypasses {gate : Gate Ctx σ π} {i : Nat} {c c' : Counters σ} {e : Event Ctx}
    {phase phase' : Phase π} (moved : Moves gate i c e phase c' phase') :
    phase'.bypasses = phase.bypasses := by
  cases moved with
  | complete op call own limited => rfl
  | advance advanced =>
    cases phase <;> simp only [Phase.advance, Option.some.injEq, Prod.mk.injEq, reduceCtorEq]
      at advanced <;> obtain ⟨rfl, rfl, rfl⟩ := advanced
    case acquiring pc =>
      rcases (gate.acquire c.limit c.toGauge pc _).2 with _ | _ | _ <;> rfl
    case counting call => split <;> rfl
    all_goals rfl

/-- The limit's own steps: they store the cap and, in its callback, the subclass's share. -/
def Published (gate : Gate Ctx σ π) (c c' : Counters σ) : Prop :=
  c' = { c with limit := c'.limit, sub := c'.sub } ∧
    (c'.sub = c.sub ∨ ∃ value stores, c'.sub = gate.limitChanged value stores c.sub)

def Limiter.enter (l : Limiter Ctx σ π) (context : Ctx) : Request Ctx π :=
  ⟨context, if l.bypassPredicate context then .bypassing else .acquiring (l.gate.entry context)⟩

theorem Limiter.enter_phase (l : Limiter Ctx σ π) (context : Ctx) :
    (l.enter context).phase = .bypassing ∨
      (l.enter context).phase = .acquiring (l.gate.entry context) := by
  rw [enter]
  dsimp only
  split
  · exact .inl rfl
  · exact .inr rfl

namespace State
variable {l : Limiter Ctx σ π} {s t : State Ctx σ π} {e : Event Ctx}

theorem step_cases (valid : s.Valid) (stepped : s.step l e = some t) :
    (∃ context, e = .tryAcquire context ∧ t.toCounters = s.toCounters ∧
        t.requests = s.requests ++ [l.enter context]) ∨
      (∃ i r phase, s.requests[i]? = some r ∧
        Moves l.gate i s.toCounters e r.phase t.toCounters phase ∧
        t.requests = s.requests.modify i (.moveTo phase)) ∨
      ((∀ i input, e ≠ .advance i input) ∧ (∀ context, e ≠ .tryAcquire context) ∧
        t.requests = s.requests ∧ Published l.gate s.toCounters t.toCounters) := by
  cases e with
  | tryAcquire context =>
    cases stepped
    exact .inl ⟨context, rfl, rfl, rfl⟩
  | advance i input =>
    obtain ⟨r, c, phase, made, heap, found, advanced, _, rfl⟩ := step_advance stepped
    exact .inr (.inl ⟨i, r, phase, found, .advance advanced, rfl⟩)
  | guard op =>
    obtain ⟨heap, completion, applied, rfl⟩ := step_guard stepped
    have unchanged : Published l.gate s.toCounters s.toCounters := ⟨rfl, .inl rfl⟩
    cases completion with
    | none => exact .inr (.inr ⟨by simp, by simp, rfl, unchanged⟩)
    | some call =>
      by_cases bypassed : call.slot.bypassed
      · exact .inr (.inr ⟨by simp, by simp, if_pos bypassed, unchanged⟩)
      · have limited : call.slot.bypassed = false := by simpa using bypassed
        obtain ⟨r, found, atHeld⟩ := completion_held valid applied limited
        refine .inr (.inl ⟨call.id, r, .decrementing call, found, ?_, if_neg bypassed⟩)
        rw [atHeld]
        exact .complete op call rfl limited
  | setLimit value =>
    simp only [step] at stepped
    split at stepped
    · contradiction
    · split at stepped <;> cases stepped <;>
        exact .inr (.inr ⟨by simp, by simp, rfl, rfl, .inl rfl⟩)
  | notify =>
    simp only [step] at stepped
    split at stepped
    · contradiction
    · split at stepped <;> cases stepped
      · exact .inr (.inr ⟨by simp, by simp, rfl, rfl, .inr ⟨_, _, rfl⟩⟩)
      · exact .inr (.inr ⟨by simp, by simp, rfl, rfl, .inl rfl⟩)

variable {limit : Int} {es : List (Event Ctx)}

theorem run_valid (ran : run (step l) (start l.gate limit) es = some s) : s.Valid :=
  invariant valid_step ran (start_valid l.gate limit)

/-- A per-call fact that entering establishes and every move keeps holds of all calls. -/
theorem forall_requests {Q : Nat → Request Ctx π → Prop}
    (enters : ∀ i context, Q i (l.enter context))
    (moves : ∀ {i r c e c' phase}, Q i r → Moves l.gate i c e r.phase c' phase →
      Q i (r.moveTo phase))
    (ran : run (step l) (start l.gate limit) es = some s) {i : Nat} {r : Request Ctx π}
    (found : s.requests[i]? = some r) : Q i r := by
  refine history (P := fun _ s => ∀ i r, s.requests[i]? = some r → Q i r) (by simp [start]) ?_
    ran i r found
  intro es s e t before all stepped j r found
  rcases step_cases (run_valid before) stepped with
    ⟨context, _, _, requests⟩ | ⟨i, r', phase, here, moved, requests⟩ | ⟨_, _, requests, _⟩
  · rw [requests] at found
    rcases Pool.getElem?_concat_eq_some.mp found with before | ⟨_, rfl⟩
    · exact all j r before
    · exact enters j context
  · rw [requests] at found
    rcases Pool.getElem?_modify_cases here found with ⟨rfl, rfl⟩ | ⟨_, before⟩
    · exact moves (all j r' here) moved
    · exact all j r before
  · rw [requests] at found
    exact all j r found

theorem run_bypasses (ran : run (step l) (start l.gate limit) es = some s) {i : Nat}
    {r : Request Ctx π} (found : s.requests[i]? = some r) :
    r.phase.bypasses = l.bypassPredicate r.context := by
  refine forall_requests (Q := fun _ r => r.phase.bypasses = l.bypassPredicate r.context) ?_ ?_
    ran found
  · intro i context
    simp only [Limiter.enter]
    cases l.bypassPredicate context <;> rfl
  · intro i r c e c' phase same moved
    exact (moves_bypasses moved).trans same

/-- A quantity that every move changes by what the moving call counts for afterwards, less
what it counted for before, is the number of calls that count. -/
theorem conserved (quantity : Counters σ → Int) {counts : Request Ctx π → Bool}
    (initial : quantity (start l.gate limit).toCounters = 0)
    (enters : ∀ context, counts (l.enter context) = false)
    (moves : ∀ {i r c e c' phase}, Moves l.gate i c e r.phase c' phase →
      quantity c' + (if counts r then 1 else 0) =
        quantity c + (if counts (r.moveTo phase) then 1 else 0))
    (published : ∀ {c c'}, Published l.gate c c' → quantity c' = quantity c)
    (ran : run (step l) (start l.gate limit) es = some s) :
    quantity s.toCounters = s.requests.countP counts := by
  refine history (P := fun _ s => quantity s.toCounters = s.requests.countP counts) initial ?_ ran
  intro es s e t before counted stepped
  rcases step_cases (run_valid before) stepped with
    ⟨context, _, same, requests⟩ | ⟨i, r, phase, here, moved, requests⟩ | ⟨_, _, requests, changed⟩
  · rw [same, requests, Pool.countP_concat, enters, counted]
    rfl
  · have balance := moves moved
    have recount := Pool.countP_modify counts (Request.moveTo phase) here
    rw [requests]
    rw [counted] at balance
    split_ifs at balance recount <;> omega
  · rw [requests, published changed, counted]

/-- An observer who credits to a call, at each of its own steps, what it sees of the
counters before and after and of the point the call reaches. -/
def credit {O : Type} (view : Counters σ → Counters σ → Phase π → List O) (s : State Ctx σ π)
    (e : Event Ctx) (t : State Ctx σ π) : List (Nat × O) :=
  match e with
  | .advance i _ =>
    match t.requests[i]? with
    | some r => (view s.toCounters t.toCounters r.phase).map fun seen => (i, seen)
    | none => []
  | _ => []

def log {O : Type} (l : Limiter Ctx σ π) (limit : Int)
    (view : Counters σ → Counters σ → Phase π → List O) (es : List (Event Ctx)) :
    List (Nat × O) :=
  observe (step l) (credit view) (start l.gate limit) es

section Credit
variable {O : Type} {view : Counters σ → Counters σ → Phase π → List O}

theorem credit_other (other : ∀ i input, e ≠ .advance i input) : credit view s e t = [] := by
  cases e with
  | advance i input => exact absurd rfl (other i input)
  | _ => rfl

theorem credit_advance {i : Nat} {input : Input} {r : Request Ctx π} {phase : Phase π}
    (found : s.requests[i]? = some r)
    (requests : t.requests = s.requests.modify i (.moveTo phase)) :
    credit view s (.advance i input) t =
      (view s.toCounters t.toCounters phase).map fun seen => (i, seen) := by
  simp only [credit, requests, Pool.getElem?_modify_self (Request.moveTo phase) found]
  rfl

theorem log_concat (before : run (step l) (start l.gate limit) es = some s)
    (stepped : s.step l e = some t) :
    log l limit view (es ++ [e]) = log l limit view es ++ credit view s e t :=
  observe_concat before stepped

/-- What has been credited to a call is related to the point the call has reached. -/
structure Credited (R : Request Ctx π → List O → Prop) (entries : List (Nat × O))
    (s : State Ctx σ π) : Prop where
  each : ∀ (i : Nat) r, s.requests[i]? = some r → R r (about i entries)
  unseen : ∀ i, s.requests.length ≤ i → about i entries = []

variable {R : Request Ctx π → List O → Prop} {entries : List (Nat × O)}

theorem credited_step (valid : s.Valid) (credited : Credited R entries s)
    (enters : ∀ context, R (l.enter context) [])
    (advances : ∀ {i : Nat} {r input c phase made seen}, s.requests[i]? = some r →
      r.phase.advance l.gate s.toCounters input = some (c, phase, made) → R r seen →
      R (r.moveTo phase) (seen ++ view s.toCounters c phase))
    (completes : ∀ {r call seen}, r.phase = .held call.slot → R r seen →
      R (r.moveTo (.decrementing call)) seen)
    (stepped : s.step l e = some t) : Credited R (entries ++ credit view s e t) t := by
  rcases step_cases valid stepped with
    ⟨context, rfl, _, requests⟩ | ⟨i, r, phase, found, moved, requests⟩ | ⟨other, _, requests, _⟩
  · rw [credit_other (by simp), List.append_nil]
    constructor
    · intro j r found
      rw [requests] at found
      rcases Pool.getElem?_concat_eq_some.mp found with before | ⟨rfl, rfl⟩
      · exact credited.each j r before
      · rw [credited.unseen _ (Nat.le_refl _)]
        exact enters context
    · intro j beyond
      rw [requests, List.length_append] at beyond
      exact credited.unseen j (by omega)
  · have present : i < s.requests.length := (List.getElem?_eq_some_iff.mp found).1
    rcases moved.cases with ⟨input, made, rfl, advanced⟩ | ⟨op, call, rfl, _, atHeld, _, rfl⟩
    · rw [credit_advance found requests]
      constructor
      · intro j r' found'
        rw [requests] at found'
        rcases Pool.getElem?_modify_cases found found' with ⟨rfl, rfl⟩ | ⟨other, earlier⟩
        · rw [about_append, about_own]
          exact advances found advanced (credited.each j r found)
        · rw [about_append, about_other other, List.append_nil]
          exact credited.each j r' earlier
      · intro j beyond
        rw [requests, List.length_modify] at beyond
        rw [about_append, about_other (by omega), List.append_nil]
        exact credited.unseen j beyond
    · rw [credit_other (by simp), List.append_nil]
      constructor
      · intro j r' found'
        rw [requests] at found'
        rcases Pool.getElem?_modify_cases found found' with ⟨rfl, rfl⟩ | ⟨_, earlier⟩
        · exact completes atHeld (credited.each j r found)
        · exact credited.each j r' earlier
      · intro j beyond
        rw [requests, List.length_modify] at beyond
        exact credited.unseen j beyond
  · rw [credit_other other, List.append_nil]
    exact ⟨by rw [requests]; exact credited.each, by rw [requests]; exact credited.unseen⟩

/-- A relation that entering, a call's own steps and its completion keep holds of all calls
in every run. The steps may use what is known of the run so far. -/
theorem run_credited (enters : ∀ context, R (l.enter context) [])
    (advances : ∀ {before s} {i : Nat} {r input c phase made seen}, before <+: es →
      run (step l) (start l.gate limit) before = some s → s.requests[i]? = some r →
      r.phase.advance l.gate s.toCounters input = some (c, phase, made) → R r seen →
      R (r.moveTo phase) (seen ++ view s.toCounters c phase))
    (completes : ∀ {r call seen}, r.phase = .held call.slot → R r seen →
      R (r.moveTo (.decrementing call)) seen)
    (ran : run (step l) (start l.gate limit) es = some s) :
    Credited R (log l limit view es) s := by
  suffices all : es <+: es → Credited R (log l limit view es) s from all List.prefix_rfl
  refine history (P := fun before s => before <+: es → Credited R (log l limit view before) s)
    (fun _ => ⟨by simp [start], fun _ _ => rfl⟩) ?_ ran
  intro before s e t ran ih stepped within
  have shorter : before <+: es := (List.prefix_append before [e]).trans within
  rw [log_concat ran stepped]
  exact credited_step (run_valid ran) (ih shorter) enters (advances shorter ran) completes stepped
end Credit
end State
end Limen.AbstractLimiter
