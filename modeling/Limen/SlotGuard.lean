import Limen.Transition
import Mathlib.Logic.Function.Basic

/-! The move-only `SlotGuard` and the objects that hold one. Every member function
is translated field by field; the ownership map below it is the meaning the rest of
the development uses. -/
namespace Limen

/-- `Limiter::CompletionStatus`. -/
inductive CompletionStatus where
  | success | ignored | dropped
  deriving DecidableEq, Repr

/-- The arguments of `MakeSlot`. -/
structure Slot (L : Type) where
  limiter : L
  startTimeNs : Int
  inflightAtAcquire : Int
  bypassed : Bool
  partitionIndex : Int
  deriving DecidableEq, Repr

/-- One call of `OnSlotComplete`. `id` is not data of the program: it numbers the
slots, so that two slots with equal fields stay apart. -/
structure Completion (L : Type) where
  id : Nat
  slot : Slot L
  status : CompletionStatus
  deriving DecidableEq, Repr

/-- The fields of `Limiter::SlotGuard`; a null `limiter_` is `none`. -/
structure SlotGuard (L : Type) where
  limiter : Option L
  startTimeNs : Int
  inflightAtAcquire : Int
  partitionIndex : Int
  bypassed : Bool
  completed : Bool
  id : Nat
  deriving DecidableEq, Repr

namespace SlotGuard
variable {L : Type}

def makeSlot (id : Nat) (slot : Slot L) : SlotGuard L where
  limiter := some slot.limiter
  startTimeNs := slot.startTimeNs
  inflightAtAcquire := slot.inflightAtAcquire
  partitionIndex := slot.partitionIndex
  bypassed := slot.bypassed
  completed := false
  id := id

/-- The guarded call `limiter_->OnSlotComplete(status, ...)`, written out three times
in the source: in the destructor, in the move assignment and in `Complete`. -/
def notify (g : SlotGuard L) (status : CompletionStatus) : Option (Completion L) :=
  match g.limiter with
  | none => none
  | some limiter =>
    if g.completed then none
    else some ⟨g.id, ⟨limiter, g.startTimeNs, g.inflightAtAcquire, g.bypassed,
      g.partitionIndex⟩, status⟩

/-- `Complete`: a null or completed guard is left as it is. -/
def complete (g : SlotGuard L) (status : CompletionStatus) :
    SlotGuard L × Option (Completion L) :=
  if g.limiter.isNone || g.completed then (g, none)
  else ({ g with completed := true }, g.notify status)

/-- What a move leaves behind; the completed flag stays as it was. -/
def movedFrom (g : SlotGuard L) : SlotGuard L := { g with limiter := none }

/-- The slot this guard still has to complete. -/
def pending (g : SlotGuard L) : Option (Nat × Slot L) :=
  (g.notify .ignored).map fun call => (call.id, call.slot)

@[simp] theorem pending_movedFrom (g : SlotGuard L) : g.movedFrom.pending = none := rfl

theorem notify_eq (g : SlotGuard L) (status : CompletionStatus) :
    g.notify status = g.pending.map fun owned => ⟨owned.1, owned.2, status⟩ := by
  simp only [pending, notify]
  split
  · rfl
  · split <;> rfl

theorem complete_snd (g : SlotGuard L) (status : CompletionStatus) :
    (g.complete status).2 = g.notify status := by
  simp only [complete, notify]
  cases g.limiter <;> cases g.completed <;> rfl

theorem pending_complete (g : SlotGuard L) (status : CompletionStatus) :
    (g.complete status).1.pending = none := by
  obtain ⟨limiter, _, _, _, _, completed, _⟩ := g
  cases limiter <;> cases completed <;> rfl
end SlotGuard

/-- The guard objects of the program, by address. -/
abbrev Heap (L : Type) := Nat → Option (SlotGuard L)

/-- The operations a program applies to guards it already has. -/
inductive GuardOp where
  | moveConstruct (dst src : Nat)
  | moveAssign (dst src : Nat)
  | complete (addr : Nat) (status : CompletionStatus)
  | destroy (addr : Nat)
  deriving DecidableEq, Repr

namespace Heap
variable {L : Type}

def make (h : Heap L) (dst id : Nat) (slot : Slot L) : Option (Heap L) :=
  match h dst with
  | none => some (Function.update h dst (some (.makeSlot id slot)))
  | some _ => none

/-- Constructs the guard that a returning `DoTryAcquire` makes, if it makes one. -/
def construct (h : Heap L) (dst id : Nat) : Option (Slot L) → Option (Heap L)
  | none => some h
  | some slot => h.make dst id slot

/-- Moves the guard at `src` over `dst`; both constructors of the source end so. -/
def move (h : Heap L) (dst src : Nat) (g : SlotGuard L) : Heap L :=
  Function.update (Function.update h dst (some g)) src (some g.movedFrom)

/-- The heap after the operation and the `OnSlotComplete` call it makes, if any. An
operation on an object that does not exist, or a construction over one that does, has
no meaning in the source language and no result here. -/
def apply (h : Heap L) : GuardOp → Option (Heap L × Option (Completion L))
  | .moveConstruct dst src =>
    match h dst, h src with
    | none, some other => some (h.move dst src other, none)
    | _, _ => none
  | .moveAssign dst src =>
    match h dst, h src with
    | some g, some other =>
      if dst = src then some (h, none) else some (h.move dst src other, g.notify .ignored)
    | _, _ => none
  | .complete addr status =>
    (h addr).map fun g =>
      (Function.update h addr (some (g.complete status).1), (g.complete status).2)
  | .destroy addr =>
    (h addr).map fun g => (Function.update h addr none, g.notify .ignored)
end Heap
end Limen
