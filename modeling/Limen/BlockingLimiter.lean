import Limen.Limit
import Limen.Pool
import Limen.SimpleLimiter.Atomic

/-! `BlockingLimiter` and `LifoBlockingLimiter`. The two differ in how a caller is put on
the wait queue and how it takes itself off; one machine, parameterised by this, models
both. A call of the delegate and a section under `mu_` are one step each, and the steps of
different calls interleave freely. -/
namespace Limen.BlockingLimiter
open AbstractLimiter (bypassSlot)

/-- The wrapped limiter, as one atomic object. -/
structure Delegate (Ctx δ : Type) where
  tryAcquire : δ → Ctx → Int → δ × Option (Slot Unit)
  onSlotComplete : δ → Slot Unit → CompletionStatus → Int → δ
  setLimit : δ → Int → δ

def simpleDelegate {Ctx : Type} (bypass : Ctx → Bool) :
    Delegate Ctx (AbstractLimiter.Counters Unit) where
  tryAcquire := SimpleLimiter.tryAcquire bypass
  onSlotComplete := SimpleLimiter.onSlotComplete
  setLimit c value := { c with limit := value }

/-- The queue of `BlockingLimiter`, or the deque of `LifoBlockingLimiter` with its bound.
Either is served from the front. -/
inductive Discipline where
  | fifo
  | lifo (backlogSize : Nat)
  deriving DecidableEq, Repr

namespace Discipline

/-- `none`: the backlog is full and the caller is turned away. -/
def park (i : Nat) (queue : List Nat) : Discipline → Option (List Nat)
  | .fifo => some (queue ++ [i])
  | .lifo backlogSize => if backlogSize ≤ queue.length then none else some (i :: queue)

/-- A waiter without a slot removes itself; the deque is searched from the back. -/
def withdraw (i : Nat) (queue : List Nat) : Discipline → List Nat
  | .fifo => queue.erase i
  | .lifo _ => (queue.reverse.erase i).reverse
end Discipline

/-- An inner slot. `id` is not data of the program: it numbers the delegate's grants. -/
structure Grant where
  id : Nat
  slot : Slot Unit
  deriving DecidableEq, Repr

structure WaiterSlot where
  slot : Option Grant := none
  ready : Bool := false
  deriving DecidableEq, Repr

/-- Where a call is. `numbering` and `registering` own the inner slot in a local, be it the
fast path's or a delivered one. The grant recorded from `held` on is not data of the
program: it says which admission the outer guard stands for. -/
inductive Phase where
  | trying
  | numbering (inner : Grant)
  | registering (ticket : Nat) (inner : Grant)
  | parking
  | waiting (waiter : WaiterSlot)
  | awake (waiter : WaiterSlot)
  | refused
  | held (ticket : Nat) (admission : Grant)
  | extracting (ticket : Nat) (admission : Grant) (call : Completion Unit)
  | mirroring (inner : Option Grant) (admission : Grant) (call : Completion Unit)
  | unblocking (admission : Grant) (call : Completion Unit)
  | completed (admission : Grant) (call : Completion Unit)
  deriving DecidableEq, Repr

structure Request (Ctx : Type) where
  context : Ctx
  phase : Phase
  deriving DecidableEq, Repr

def Request.moveTo {Ctx : Type} (phase : Phase) (r : Request Ctx) : Request Ctx := { r with phase }

/-- The id that the `ticket`-th `next_slot_id_.fetch_add(1)` returns. -/
def slotId (ticket : Nat) : Int := wrap 32 ticket

def outerSlot (ticket : Nat) : Slot Unit := ⟨(), 0, 0, false, slotId ticket⟩

structure Shared (δ : Type) where
  delegate : δ
  /-- How often an id has been taken; `next_slot_id_` is its 32-bit value. -/
  nextSlotId : Nat
  activeSlots : Int → Option Grant
  queue : List Nat
  /-- The grants so far and the completions of inner slots so far; no data of the program. -/
  granted : Nat
  completions : List (Nat × CompletionStatus)

structure State (Ctx δ : Type) extends Shared δ where
  requests : List (Request Ctx)
  heap : Heap Unit

/-- What the environment decides at a step: the readings of the clock and where the outer
guard is constructed. A wait may time out at any step. -/
structure Input where
  now : Nat → Int := fun _ => 0
  addr : Nat := 0

inductive Event (Ctx : Type) where
  | tryAcquire (context : Ctx)
  | advance (call : Nat) (input : Input)
  | guard (op : GuardOp)
  | setLimit (value : Int)

variable {Ctx δ : Type}

/-- The destructor or a completion method of the guard of an inner slot. -/
def Shared.complete (d : Delegate Ctx δ) (s : Shared δ) (inner : Grant) (status : CompletionStatus)
    (now : Int) : Shared δ :=
  { s with
    delegate := d.onSlotComplete s.delegate inner.slot status now
    completions := s.completions ++ [(inner.id, status)] }

/-- The next step of call `i`, up to and except `Unblock`. -/
def Phase.advance (d : Delegate Ctx δ) (discipline : Discipline) (i : Nat) (context : Ctx)
    (s : Shared δ) (input : Input) : Phase → Option (Shared δ × Phase × Option (Slot Unit))
  | .trying =>
    match d.tryAcquire s.delegate context (input.now 0) with
    | (delegate, some slot) =>
      some ({ s with delegate, granted := s.granted + 1 }, .numbering ⟨s.granted, slot⟩, none)
    | (delegate, none) => some ({ s with delegate }, .parking, none)
  | .numbering inner =>
    some ({ s with nextSlotId := s.nextSlotId + 1 }, .registering s.nextSlotId inner, none)
  | .registering ticket inner =>
    match s.activeSlots (slotId ticket) with
    | none =>
      some ({ s with activeSlots := Function.update s.activeSlots (slotId ticket) (some inner) },
        .held ticket inner, some (outerSlot ticket))
    -- `emplace` under a key that is present inserts nothing, and the inner guard is destroyed.
    | some _ =>
      some (s.complete d inner .ignored (input.now 0), .held ticket inner, some (outerSlot ticket))
  | .parking =>
    match discipline.park i s.queue with
    | none => some (s, .refused, none)
    | some queue => some ({ s with queue }, .waiting {}, none)
  | .waiting waiter => some (s, .awake waiter, none)
  | .awake waiter =>
    match waiter.slot with
    | some inner => some (s, .numbering inner, none)
    | none => some ({ s with queue := discipline.withdraw i s.queue }, .refused, none)
  | .extracting _ admission call =>
    let key := call.slot.partitionIndex
    some ({ s with activeSlots := Function.update s.activeSlots key none },
      .mirroring (s.activeSlots key) admission call, none)
  | .mirroring inner admission call =>
    match inner with
    | none => some (s, .unblocking admission call, none)
    | some inner =>
      some (s.complete d inner call.status (input.now 0), .unblocking admission call, none)
  | .unblocking _ _ | .refused | .held _ _ | .completed _ _ => none

/-- `w->slot = ...; w->ready.Notify()`. -/
def Phase.deliver (inner : Grant) : Phase → Phase
  | .waiting _ => .waiting ⟨some inner, true⟩
  | .awake _ => .awake ⟨some inner, true⟩
  | phase => phase

def Request.deliver (inner : Grant) (r : Request Ctx) : Request Ctx :=
  r.moveTo (r.phase.deliver inner)

/-- Entry to `OnSlotComplete` of the outer guard. -/
def Phase.complete (call : Completion Unit) : Phase → Phase
  | .held ticket admission => .extracting ticket admission call
  | phase => phase

namespace State

/-- One round of the loop in `Unblock` that the delegate admits. -/
def handOff (s : State Ctx δ) (w : Nat) (rest : List Nat) (delegate : δ) (slot : Slot Unit) :
    State Ctx δ :=
  { s with
    delegate, queue := rest, granted := s.granted + 1,
    requests := s.requests.modify w (Request.deliver ⟨s.granted, slot⟩) }

def unblock (d : Delegate Ctx δ) (now : Nat → Int) : List Nat → State Ctx δ → State Ctx δ
  | [], s => s
  | w :: rest, s =>
    match s.requests[w]? with
    | none => s
    | some r =>
      match d.tryAcquire s.delegate r.context (now rest.length) with
      | (delegate, none) => { s with delegate }
      | (delegate, some slot) => unblock d now rest (s.handOff w rest delegate slot)

def start (delegate : δ) : State Ctx δ where
  delegate := delegate
  nextSlotId := 0
  activeSlots _ := none
  queue := []
  granted := 0
  completions := []
  requests := []
  heap _ := none

/-- Over a new `SimpleLimiter`. -/
def initial (Ctx : Type) (limit : Int) : State Ctx (AbstractLimiter.Counters Unit) :=
  start (SimpleLimiter.initial Ctx limit).toCounters

def step (d : Delegate Ctx δ) (discipline : Discipline) (s : State Ctx δ) :
    Event Ctx → Option (State Ctx δ)
  | .tryAcquire context => some { s with requests := s.requests ++ [⟨context, .trying⟩] }
  | .advance i input => do
    let r ← s.requests[i]?
    match r.phase with
    | .unblocking admission call =>
      let t := unblock d input.now s.queue s
      some { t with requests := t.requests.modify i (.moveTo (.completed admission call)) }
    | phase =>
      let (shared, next, made) ← phase.advance d discipline i r.context s.toShared input
      let heap ← s.heap.construct input.addr i made
      some { s with
        toShared := shared, requests := s.requests.modify i (.moveTo next), heap }
  | .guard op => do
    let (heap, completion) ← s.heap.apply op
    match completion with
    | none => some { s with heap }
    | some call =>
      some { s with
        heap, requests := s.requests.modify call.id fun r => r.moveTo (r.phase.complete call) }
  | .setLimit value => some { s with delegate := d.setLimit s.delegate value }
end State
end Limen.BlockingLimiter
