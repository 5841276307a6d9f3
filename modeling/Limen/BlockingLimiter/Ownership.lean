import Limen.BlockingLimiter.Steps
import Limen.Custody

/-! The owners of the inner slots. Every step of the blocking limiters issues, moves or
redeems inner slots as tokens in custody, so each of them has one owner until it is
completed once. -/
namespace Limen.BlockingLimiter
open Transition
variable {Ctx δ : Type} {d : Delegate Ctx δ} {discipline : Discipline}

/-- What of a call can own an inner slot: the local of `TryAcquire` (`inner`, or
`delivered` after a wait), the waiter's `slot`, the local of `OnSlotComplete`. -/
inductive Role where
  | acquiring
  | waiting
  | completing
  deriving DecidableEq, Repr

inductive Place where
  | call (i : Nat) (role : Role)
  | entry (key : Int)
  deriving DecidableEq, Repr

def Phase.owned : Phase → Role → Option Grant
  | .numbering inner, .acquiring | .registering _ inner, .acquiring => some inner
  | .waiting waiter, .waiting | .awake waiter, .waiting => waiter.slot
  | .mirroring inner _ _, .completing => inner
  | _, _ => none

namespace State
variable {s t : State Ctx δ} {e : Event Ctx}

def owner (s : State Ctx δ) : Place → Option Grant
  | .call i role => s.requests[i]?.bind fun r => r.phase.owned role
  | .entry key => s.activeSlots key

def ledger (s : State Ctx δ) : Custody.Ledger Place Grant CompletionStatus :=
  ⟨s.owner, s.granted, s.completions⟩

theorem ledger_kept (owner : t.owner = s.owner) (granted : t.granted = s.granted)
    (log : t.completions = s.completions) : Custody.Steps Grant.id s.ledger t.ledger := by
  have same : t.ledger = s.ledger := by rw [ledger, owner, granted, log, ledger]
  rw [same]

theorem ledger_issued (place : Place) (inner : Grant) (free : s.owner place = none)
    (next : inner.id = s.granted) (owner : t.owner = Function.update s.owner place (some inner))
    (granted : t.granted = s.granted + 1) (log : t.completions = s.completions) :
    Custody.Steps Grant.id s.ledger t.ledger := by
  have after : t.ledger = ⟨Function.update s.owner place (some inner), s.granted + 1,
      s.completions⟩ := by rw [ledger, owner, granted, log]
  rw [after]
  exact .single (.issue free next)

theorem ledger_moved (source target : Place) {inner : Grant} (held : s.owner source = some inner)
    (free : s.owner target = none)
    (owner : t.owner = Function.update (Function.update s.owner source none) target (some inner))
    (granted : t.granted = s.granted) (log : t.completions = s.completions) :
    Custody.Steps Grant.id s.ledger t.ledger := by
  have after : t.ledger = ⟨Function.update (Function.update s.owner source none) target
      (some inner), s.granted, s.completions⟩ := by rw [ledger, owner, granted, log]
  rw [after]
  exact .single (.move held free)

theorem ledger_redeemed (place : Place) {inner : Grant} (status : CompletionStatus)
    (held : s.owner place = some inner) (owner : t.owner = Function.update s.owner place none)
    (granted : t.granted = s.granted)
    (log : t.completions = s.completions ++ [(inner.id, status)]) :
    Custody.Steps Grant.id s.ledger t.ledger := by
  have after : t.ledger = ⟨Function.update s.owner place none, s.granted,
      s.completions ++ [(inner.id, status)]⟩ := by rw [ledger, owner, granted, log]
  rw [after]
  exact .single (.redeem held status)

theorem owner_here {i : Nat} {r : Request Ctx} (found : s.requests[i]? = some r) (role : Role) :
    s.owner (.call i role) = r.phase.owned role := by
  rw [owner, found]
  rfl

theorem owner_modify {f : Request Ctx → Request Ctx} {i : Nat} {r : Request Ctx}
    (found : s.requests[i]? = some r) (requests : t.requests = s.requests.modify i f) (j : Nat)
    (role : Role) : t.owner (.call j role) =
      if j = i then (f r).phase.owned role else s.owner (.call j role) := by
  rw [owner, requests]
  split
  · rename_i here
    rw [here, Pool.getElem?_modify_self f found]
    rfl
  · rename_i other
    rw [Pool.getElem?_modify_other f other]
    rfl

/-- The owners change only where a modified call or the map of slots says so. -/
theorem owner_eq {f : Request Ctx → Request Ctx} {i : Nat} {r : Request Ctx}
    {after : Place → Option Grant} (found : s.requests[i]? = some r)
    (requests : t.requests = s.requests.modify i f)
    (here : ∀ role, after (.call i role) = (f r).phase.owned role)
    (elsewhere : ∀ j role, j ≠ i → after (.call j role) = s.owner (.call j role))
    (entries : ∀ key, after (.entry key) = t.activeSlots key) : t.owner = after := by
  funext place
  cases place with
  | call j role =>
    rw [owner_modify found requests]
    split
    · rename_i same
      rw [same, here]
    · rename_i other
      rw [elsewhere j role other]
  | entry key => exact (entries key).symm

/-- A call takes up a slot, or gives one up, in one of its roles. -/
theorem owner_update {f : Request Ctx → Request Ctx} {i : Nat} {r : Request Ctx} {role : Role}
    {value : Option Grant} (found : s.requests[i]? = some r)
    (requests : t.requests = s.requests.modify i f) (now : (f r).phase.owned role = value)
    (others : ∀ other ≠ role, (f r).phase.owned other = r.phase.owned other)
    (entries : t.activeSlots = s.activeSlots) :
    t.owner = Function.update s.owner (.call i role) value := by
  refine owner_eq found requests ?_ ?_ ?_
  · intro other
    by_cases same : other = role
    · rw [same, Function.update_self, now]
    · rw [Function.update_of_ne (by simp [same]), owner_here found, others other same]
  · intro j other different
    exact Function.update_of_ne (by simp [different]) ..
  · intro key
    rw [entries]
    exact Function.update_of_ne (by simp) ..

theorem ledger_advance {i : Nat} {input : Input} {r : Request Ctx} {shared : Shared δ}
    {next : Phase} {made : Option (Slot Unit)} {heap : Heap Unit}
    (found : s.requests[i]? = some r)
    (moved : Moves d discipline i r.context s.toShared input r.phase shared next made) :
    Custody.Steps Grant.id s.ledger (ledger
      { s with toShared := shared, requests := s.requests.modify i (.moveTo next), heap }) := by
  have here := owner_here found
  have other {j : Nat} {role role' : Role} (different : j ≠ i) :
      Place.call j role ≠ .call i role' := by simp [different]
  have same (owned : ∀ role, next.owned role = r.phase.owned role)
      (entries : shared.activeSlots = s.activeSlots) :
      owner { s with toShared := shared, requests := s.requests.modify i (.moveTo next), heap } =
        s.owner := by
    refine owner_eq found rfl ?_ (fun _ _ _ => rfl) ?_
    · intro role
      exact (here role).trans (owned role).symm
    · intro key
      rw [entries]
      rfl
  obtain ⟨context, phase⟩ := r
  dsimp only at *
  cases moved with
  | rejected | numbered | turnedAway | parked | woken | missing =>
    refine ledger_kept (same ?_ rfl) rfl rfl
    intro role
    cases role <;> rfl
  | @admitted delegate slot tried =>
    refine ledger_issued (.call i .acquiring) ⟨s.granted, slot⟩ (here .acquiring) rfl ?_ rfl rfl
    refine owner_update found rfl rfl ?_ rfl
    rintro (_ | _ | _) different <;> first | rfl | exact absurd rfl different
  | registered inner free =>
    refine ledger_moved (.call i .acquiring) (.entry _) (here .acquiring) free ?_ rfl rfl
    apply owner_eq found rfl
    · intro role
      cases role <;> simp [here, Phase.owned, Request.moveTo]
    · intro j role different
      rw [Function.update_of_ne (by simp), Function.update_of_ne (other different)]
    · intro key
      simp [Function.update_apply, owner]
  | collided inner taken =>
    refine ledger_redeemed (.call i .acquiring) .ignored (here .acquiring) ?_ rfl rfl
    refine owner_update found rfl rfl ?_ rfl
    rintro (_ | _ | _) different <;> first | rfl | exact absurd rfl different
  | delivered slot =>
    refine ledger_moved (.call i .waiting) (.call i .acquiring) ((here .waiting).trans slot)
      (here .acquiring) ?_ rfl rfl
    apply owner_eq found rfl
    · intro role
      cases role <;> simp [here, Phase.owned, Request.moveTo]
    · intro j role different
      rw [Function.update_of_ne (other different), Function.update_of_ne (other different)]
    · intro key
      rfl
  | timedOut empty =>
    refine ledger_kept (same ?_ rfl) rfl rfl
    intro role
    cases role
    · rfl
    · exact empty.symm
    · rfl
  | extracted ticket admission call =>
    cases present : s.activeSlots call.slot.partitionIndex with
    | none =>
      refine ledger_kept ?_ rfl rfl
      refine owner_eq found rfl ?_ (fun _ _ _ => rfl) ?_
      · intro role
        cases role <;> simp [here, Phase.owned, Request.moveTo]
      · intro key
        simp only [owner, Function.update_apply]
        split
        · rename_i same
          rw [same, present]
        · rfl
    | some inner =>
      refine ledger_moved (.entry _) (.call i .completing) present (here .completing) ?_ rfl rfl
      apply owner_eq found rfl
      · intro role
        cases role <;> simp [here, Phase.owned, Request.moveTo]
      · intro j role different
        rw [Function.update_of_ne (other different), Function.update_of_ne (by simp)]
      · intro key
        simp [Function.update_apply, owner]
  | mirrored inner admission call =>
    refine ledger_redeemed (.call i .completing) call.status (here .completing) ?_ rfl rfl
    refine owner_update found rfl rfl ?_ rfl
    rintro (_ | _ | _) different <;> first | rfl | exact absurd rfl different

theorem ledger_handOff {w : Nat} {rest : List Nat} {r : Request Ctx} {delegate : δ}
    {slot : Slot Unit} (valid : s.Valid) (queue : s.queue = w :: rest)
    (found : s.requests[w]? = some r) :
    Custody.Steps Grant.id s.ledger (s.handOff w rest delegate slot).ledger := by
  obtain ⟨waiter, waits, empty⟩ := valid.front queue found
  have here := owner_here found
  have vacant (role : Role) : r.phase.owned role = none := by
    cases phase : r.phase <;> cases role <;> simp_all [Phase.waiter?, Phase.owned]
  have delivered (inner : Grant) : (r.phase.deliver inner).owned .waiting = some inner := by
    cases phase : r.phase <;> simp_all [Phase.waiter?, Phase.owned, Phase.deliver]
  have others (inner : Grant) {role : Role} (other : role ≠ .waiting) :
      (r.phase.deliver inner).owned role = none := by
    cases phase : r.phase <;> cases role <;> simp_all [Phase.waiter?, Phase.owned, Phase.deliver]
  refine ledger_issued (.call w .waiting) ⟨s.granted, slot⟩ ?_ rfl ?_ rfl rfl
  · rw [here, vacant]
  · refine owner_update found rfl (delivered _) ?_ rfl
    intro role other
    rw [vacant]
    exact others _ other

theorem ledger_unblock {now : Nat → Int} (valid : s.Valid) :
    Custody.Steps Grant.id s.ledger (unblock d now s.queue s).ledger := by
  apply unblock_valid_invariant (P := fun t => Custody.Steps Grant.id s.ledger t.ledger) ?_ ?_
    valid .refl
  · intro u w rest r delegate slot now valid steps queue found _
    exact steps.trans (ledger_handOff valid queue found)
  · intro u r delegate now steps _
    exact steps.trans (ledger_kept rfl rfl rfl)

theorem ledger_step (valid : s.Valid) (stepped : s.step d discipline e = some t) :
    Custody.Steps Grant.id s.ledger t.ledger := by
  cases e with
  | tryAcquire context =>
    cases stepped
    refine ledger_kept ?_ rfl rfl
    funext place
    cases place with
    | call j role =>
      rw [owner, owner]
      rcases Nat.lt_trichotomy j s.requests.length with before | rfl | after
      · rw [List.getElem?_append_left before]
      · cases role <;> simp [Phase.owned]
      · rw [List.getElem?_eq_none (Nat.le_of_lt after), List.getElem?_eq_none]
        simpa using after
    | entry key => rfl
  | advance i input =>
    obtain ⟨r, found, ⟨admission, call, atUnblock, rfl⟩ |
      ⟨shared, next, made, heap, moved, _, rfl⟩⟩ := step_advance stepped
    · have kept : (unblock d input.now s.queue s).requests[i]? = some r :=
        unblock_keeps valid found (by rw [atUnblock]; rfl)
      refine (ledger_unblock valid).trans (ledger_kept ?_ rfl rfl)
      refine owner_eq kept rfl ?_ (fun _ _ _ => rfl) fun _ => rfl
      intro role
      rw [owner_here kept, atUnblock]
      cases role <;> rfl
    · exact ledger_advance found moved
  | guard op =>
    rcases step_guard valid stepped with
      ⟨heap, rfl, _⟩ | ⟨heap, call, r, ticket, admission, found, atHeld, _, rfl, _⟩
    · exact ledger_kept rfl rfl rfl
    · refine ledger_kept ?_ rfl rfl
      refine owner_eq found rfl ?_ (fun _ _ _ => rfl) fun _ => rfl
      intro role
      rw [owner_here found, atHeld]
      cases role <;> rfl
  | setLimit value =>
    cases stepped
    exact ledger_kept rfl rfl rfl

theorem run_sound {delegate : δ} {es : List (Event Ctx)}
    (ran : run (step d discipline) (start delegate) es = some s) :
    Custody.Sound Grant.id s.ledger := by
  have initial : Custody.Sound Grant.id (start delegate : State Ctx δ).ledger := by
    have empty : (start delegate : State Ctx δ).owner = fun _ => none := by
      funext place
      cases place <;> rfl
    rw [ledger, empty]
    exact Custody.empty_sound _
  apply valid_invariant (P := fun s => Custody.Sound Grant.id s.ledger) ?_ (start_valid delegate)
    ran initial
  intro s e t valid sound stepped
  exact sound.steps (ledger_step valid stepped)
end State
end Limen.BlockingLimiter
