import Limen.Limit
import Limen.SlotGuard

/-! `AbstractLimiter` at the granularity of single atomic operations. Any number of calls
are in progress at once; each has a program point of its own, and one event lets one of
them make its next access to the shared atomics. Counters are mathematical integers. -/
namespace Limen.AbstractLimiter

/-- `AbstractLimiter::Status`. -/
inductive Status where
  | success | rejected | dropped | ignored | bypassed
  deriving DecidableEq, Repr

def toOutcomeStatus : CompletionStatus → Status
  | .success => .success
  | .ignored => .ignored
  | .dropped => .dropped

structure AcquireResult where
  inflightPost : Int
  partitionIndex : Int
  deriving DecidableEq, Repr

/-- The atomics that admission decides on: `inflight_` and those of a subclass. -/
structure Gauge (σ : Type) where
  inflight : Int
  sub : σ
  deriving DecidableEq, Repr

/-- How one atomic operation of `DoAcquire` ends: at a next program point or with the
returned value. -/
inductive Progress (π : Type) where
  | running (pc : π)
  | finished (result : Option AcquireResult)
  deriving DecidableEq, Repr

/-- A subclass of `AbstractLimiter`. `acquire` performs one atomic operation of its
`DoAcquire` under the current cap; the Boolean lets a weak compare-and-exchange fail
spuriously. The last two fields are the contract of `DoAcquire`: on admission it leaves
the in-flight counter incremented by exactly one and returns its value, and otherwise it
does not touch it. -/
structure Gate (Ctx σ π : Type) where
  construct : Int → σ
  entry : Ctx → π
  acquire : Int → Gauge σ → π → Bool → Gauge σ × Progress π
  onReleasePartition : Int → σ → σ
  /-- The number of stores the limit-change callback makes, and each of them. -/
  callbackStores : Nat
  limitChanged : Int → Nat → σ → σ
  reserves : ∀ limit gauge pc spurious gauge' result,
    acquire limit gauge pc spurious = (gauge', .finished (some result)) →
      gauge'.inflight = gauge.inflight + 1 ∧ result.inflightPost = gauge.inflight + 1
  keeps : ∀ limit gauge pc spurious gauge' progress,
    acquire limit gauge pc spurious = (gauge', progress) →
      (∀ result, progress ≠ .finished (some result)) → gauge'.inflight = gauge.inflight

/-- The base class: `DoAcquire` admits unconditionally with a plain `fetch_add`. -/
def gate (Ctx : Type) : Gate Ctx Unit Unit where
  construct _ := ()
  entry _ := ()
  acquire _ gauge _ _ :=
    ({ gauge with inflight := gauge.inflight + 1 }, .finished (some ⟨gauge.inflight + 1, -1⟩))
  onReleasePartition _ sub := sub
  callbackStores := 0
  limitChanged _ _ sub := sub
  reserves := by
    rintro limit gauge pc spurious gauge' result ⟨⟩
    exact ⟨rfl, rfl⟩
  keeps := by
    rintro limit gauge pc spurious gauge' progress ⟨⟩ other
    exact absurd rfl (other _)

/-- Where a call is: inside `DoTryAcquire` up to `admitted`, returned, or inside the
`OnSlotComplete` of its slot from `decrementing` on. -/
inductive Phase (π : Type) where
  | bypassing
  | acquiring (pc : π)
  | rejecting
  | admitted (result : AcquireResult)
  | rejected
  | bypassed
  | held (slot : Slot Unit)
  | decrementing (call : Completion Unit)
  | releasingPartition (call : Completion Unit)
  | counting (call : Completion Unit)
  | sampling (call : Completion Unit)
  | completed (call : Completion Unit)
  deriving DecidableEq, Repr

structure Request (Ctx π : Type) where
  context : Ctx
  phase : Phase π
  deriving DecidableEq, Repr

def Request.moveTo {Ctx π : Type} (phase : Phase π) (r : Request Ctx π) : Request Ctx π :=
  { r with phase }

structure Counters (σ : Type) extends Gauge σ where
  /-- `GetLimit()` of the wrapped algorithm. -/
  limit : Int
  outcomeCounts : Status → Nat
  /-- The `OnSample` calls the wrapped algorithm has received. -/
  samples : List Sample

/-- A call is numbered by its position in `requests`, and so is its slot. -/
structure State (Ctx σ π : Type) extends Counters σ where
  /-- A cap being published under the limit's mutex, and the callback's stores so far. -/
  publishing : Option (Int × Nat)
  requests : List (Request Ctx π)
  heap : Heap Unit

/-- What the environment decides at a step: whether a weak exchange fails spuriously, what
the clock reads and where a new guard is constructed. -/
structure Input where
  spurious : Bool := false
  now : Int := 0
  addr : Nat := 0
  deriving DecidableEq, Repr

inductive Event (Ctx : Type) where
  | tryAcquire (context : Ctx)
  | advance (call : Nat) (input : Input)
  | guard (op : GuardOp)
  | setLimit (value : Int)
  | notify
  deriving DecidableEq, Repr

structure Limiter (Ctx σ π : Type) where
  gate : Gate Ctx σ π
  /-- A null predicate is one that is false everywhere. -/
  bypassPredicate : Ctx → Bool

variable {Ctx σ π : Type}

/-- `outcome_counts_[status].fetch_add(1)`. -/
def Counters.count (c : Counters σ) (status : Status) : Counters σ :=
  { c with outcomeCounts := Function.update c.outcomeCounts status (c.outcomeCounts status + 1) }

def bypassSlot : Slot Unit := ⟨(), 0, 0, true, -1⟩

def Progress.phase : Progress π → Phase π
  | .running pc => .acquiring pc
  | .finished none => .rejecting
  | .finished (some result) => .admitted result

/-- The next atomic operation of a call, and the guard it constructs, if any. A call that
has returned makes none. -/
def Phase.advance (gate : Gate Ctx σ π) (c : Counters σ) (input : Input) :
    Phase π → Option (Counters σ × Phase π × Option (Slot Unit))
  | .bypassing => some (c.count .bypassed, .bypassed, some bypassSlot)
  | .acquiring pc =>
    let acquired := gate.acquire c.limit c.toGauge pc input.spurious
    some ({ c with toGauge := acquired.1 }, acquired.2.phase, none)
  | .rejecting => some (c.count .rejected, .rejected, none)
  | .admitted result =>
    let slot := ⟨(), input.now, result.inflightPost, false, result.partitionIndex⟩
    some (c, .held slot, some slot)
  | .decrementing call =>
    some ({ c with inflight := c.inflight - 1 }, .releasingPartition call, none)
  | .releasingPartition call =>
    some ({ c with sub := gate.onReleasePartition call.slot.partitionIndex c.sub },
      .counting call, none)
  | .counting call =>
    let outcome := toOutcomeStatus call.status
    -- An ignored call carries no latency information and feeds no sample.
    some (c.count outcome,
      if outcome = .success ∨ outcome = .dropped then .sampling call else .completed call, none)
  | .sampling call =>
    let rttNs := input.now - call.slot.startTimeNs
    let didDrop := toOutcomeStatus call.status = .dropped
    some ({ c with samples := c.samples ++
        [⟨call.slot.startTimeNs, rttNs, call.slot.inflightAtAcquire, didDrop⟩] },
      .completed call, none)
  | .rejected | .bypassed | .held _ | .completed _ => none

namespace State

def start (gate : Gate Ctx σ π) (limit : Int) : State Ctx σ π where
  inflight := 0
  sub := gate.construct limit
  limit := limit
  outcomeCounts _ := 0
  samples := []
  publishing := none
  requests := []
  heap _ := none

/-- Entry to `OnSlotComplete`: a bypassed slot was accounted for at acquire time. -/
def onSlotComplete (s : State Ctx σ π) : Option (Completion Unit) → List (Request Ctx π)
  | none => s.requests
  | some call =>
    if call.slot.bypassed then s.requests
    else s.requests.modify call.id (Request.moveTo (.decrementing call))

def step (l : Limiter Ctx σ π) (s : State Ctx σ π) : Event Ctx → Option (State Ctx σ π)
  | .tryAcquire context =>
    let phase := if l.bypassPredicate context then .bypassing
      else .acquiring (l.gate.entry context)
    some { s with requests := s.requests ++ [⟨context, phase⟩] }
  | .advance call input => do
    let request ← s.requests[call]?
    let (counters, phase, made) ← request.phase.advance l.gate s.toCounters input
    let heap ← s.heap.construct input.addr call made
    some { s with
      toCounters := counters, requests := s.requests.modify call (Request.moveTo phase), heap }
  | .guard op => do
    let (heap, completion) ← s.heap.apply op
    some { s with heap, requests := s.onSlotComplete completion }
  | .setLimit value =>
    match s.publishing with
    | some _ => none
    | none => if value = s.limit then some s
        else some { s with limit := value, publishing := some (value, 0) }
  | .notify =>
    match s.publishing with
    | none => none
    | some (value, stores) =>
      if stores < l.gate.callbackStores then
        some { s with
          sub := l.gate.limitChanged value stores s.sub, publishing := some (value, stores + 1) }
      else some { s with publishing := none }
end State
end Limen.AbstractLimiter
