import Limen.CodelFilter

/-! The queue discipline of RFC 8289, sections 5.5 and 5.6, without the `bytes()` term,
beside an application that asks the filter about one dequeued item at a time. The two
agree as long as no drain hides an overload, no drop episode ends in the window in which the
filter's schedule is one drop ahead, and no episode starts with a spacing that rounds to
zero. -/
namespace Limen.CodelFilter

structure Item where
  id : Nat
  enqueueTime : Int
  deriving DecidableEq, Repr

/-- What one dequeue attempt leaves behind. -/
structure Attempt (σ : Type) where
  state : σ
  queue : List Item
  dropped : List Item
  delivered : Option Item

/-- The application: dequeue and ask, at one clock reading, until an item is kept or
the queue is empty. The filter is not told about an empty queue. -/
def attempt (p : Params) (now : Int) (s : State) : List Item → Attempt State
  | [] => ⟨s, [], [], none⟩
  | item :: rest =>
    let (s, drop) := shouldDrop p s item.enqueueTime now
    if drop then
      let out := attempt p now s rest
      { out with dropped := item :: out.dropped }
    else ⟨s, rest, [], some item⟩

namespace Rfc8289

structure State where
  firstAboveTime : Int := 0
  dropNext : Int := 0
  count : UInt32 := 0
  lastcount : UInt32 := 0
  dropping : Bool := false
  deriving DecidableEq, Repr

/-- `dodequeue` on the packet that the queue gave up, if it had one. -/
def dodequeue (p : Params) (now : Int) (s : State) : Option Item → State × Bool
  | none => ({ s with firstAboveTime := 0 }, false)
  | some item =>
    if now - item.enqueueTime < p.target then ({ s with firstAboveTime := 0 }, false)
    else if s.firstAboveTime = 0 then ({ s with firstAboveTime := now + p.interval }, false)
    else (s, decide (s.firstAboveTime ≤ now))

/-- What the loop does with the answer of its own `dodequeue`: leave drop state, or
schedule the next drop. -/
def reschedule (p : Params) (s : State) (ok : Bool) : State :=
  if ok then { s with dropNext := controlLaw p s.dropNext s.count }
  else { s with dropping := false }

/-- `while (now >= drop_next_ && dropping_)`, with `current` the packet in hand. -/
def dropLoop (p : Params) (now : Int) (s : State) (current : Item) : List Item → Attempt State
  | [] =>
    if s.dropNext ≤ now ∧ s.dropping = true then
      let (s, ok) := dodequeue p now { s with count := s.count + 1 } none
      ⟨reschedule p s ok, [], [current], none⟩
    else ⟨s, [], [], some current⟩
  | next :: rest =>
    if s.dropNext ≤ now ∧ s.dropping = true then
      let (s, ok) := dodequeue p now { s with count := s.count + 1 } (some next)
      let out := dropLoop p now (reschedule p s ok) next rest
      { out with dropped := current :: out.dropped }
    else ⟨s, next :: rest, [], some current⟩

def entryCount (p : Params) (s : State) (now : Int) : UInt32 :=
  if 1 < s.count - s.lastcount ∧ now - s.dropNext < 16 * p.interval then s.count - s.lastcount
  else 1

/-- The last part of `deque` on entry to drop state. -/
def enter (p : Params) (s : State) (now : Int) : State :=
  { s with
    dropping := true
    count := entryCount p s now
    dropNext := controlLaw p now (entryCount p s now)
    lastcount := entryCount p s now }

def deque (p : Params) (now : Int) (s : State) : List Item → Attempt State
  | [] => ⟨{ (dodequeue p now s none).1 with dropping := false }, [], [], none⟩
  | item :: rest =>
    let (s, ok) := dodequeue p now s (some item)
    if s.dropping then
      dropLoop p now (if ok then s else { s with dropping := false }) item rest
    else if ok then
      let (s, _) := dodequeue p now s rest.head?
      ⟨enter p s now, rest.tail, [item], rest.head?⟩
    else ⟨s, rest, [], some item⟩
end Rfc8289

/-! ### One queue under either discipline -/

inductive Event where
  | enqueue (now : Int)
  | dequeue (now : Int)
  deriving DecidableEq, Repr

def Event.now : Event → Int
  | .enqueue now | .dequeue now => now

structure Bench (σ : Type) where
  state : σ
  queue : List Item := []
  arrivals : Nat := 0
  dropped : List Item := []

variable {σ : Type}

/-- An enqueued item is stamped with the current reading. -/
def Bench.step (discipline : Int → σ → List Item → Attempt σ) (b : Bench σ) : Event → Bench σ
  | .enqueue now =>
    { b with queue := b.queue ++ [⟨b.arrivals, now⟩], arrivals := b.arrivals + 1 }
  | .dequeue now =>
    let out := discipline now b.state b.queue
    { b with state := out.state, queue := out.queue, dropped := b.dropped ++ out.dropped }

def droppedByFilter (p : Params) (trace : List Event) : List Item :=
  (trace.foldl (Bench.step (attempt p)) ⟨{}, [], 0, []⟩).dropped

def droppedByRfc (p : Params) (trace : List Event) : List Item :=
  (trace.foldl (Bench.step (Rfc8289.deque p)) ⟨{}, [], 0, []⟩).dropped

/-- The clock never goes back and stays after the epoch. -/
def ClockOrdered (trace : List Event) : Prop :=
  (∀ e ∈ trace, 0 < e.now) ∧ (trace.map Event.now).Pairwise (· ≤ ·)

/-- A waiting item is kept, the queue runs empty, and the next item that waited too
long is dropped at once by the filter, while the reference starts a new interval. -/
def drainTrace : List Event :=
  [.enqueue 1, .dequeue 5, .dequeue 6, .enqueue 10, .dequeue 20]

/-- Never an empty dequeue. The first episode ends right after its second scheduled drop,
at 29, so the filter has scheduled 34 and the reference still 29. At 190 only the filter
takes the episode to be recent, and it drops again at 198. -/
def rescheduleTrace : List Event :=
  List.replicate 6 (.enqueue 1) ++
    [.dequeue 2, .dequeue 12, .dequeue 22, .enqueue 29, .dequeue 29] ++
    List.replicate 5 (.enqueue 150) ++ [.dequeue 180, .dequeue 190, .dequeue 198]

/-- One tick as the interval, which is a quarter of a nanosecond: from a count of five on,
`interval_ / std::sqrt(count)` rounds to zero. -/
def oneTick : Params where
  target := 1
  interval := 1
  spacing count := if count.toNat ≤ 4 then 1 else 0
  target_pos := Int.zero_lt_one
  interval_pos := Int.zero_lt_one

/-- An episode ends at 8 with a count of six, and the next starts at 12 with five of them.
Its first drop is due at once, and the filter drops the item that the reference delivers. -/
def crowdedTrace : List Event :=
  List.replicate 11 (.enqueue 1) ++
    [.dequeue 3, .dequeue 4, .dequeue 5, .dequeue 6, .dequeue 7, .enqueue 8, .dequeue 8] ++
    List.replicate 3 (.enqueue 9) ++ [.dequeue 11, .dequeue 12]

theorem filter_differs_from_rfc :
    (ClockOrdered drainTrace ∧ droppedByFilter tenTicks drainTrace = [⟨1, 10⟩] ∧
      droppedByRfc tenTicks drainTrace = []) ∧
    (ClockOrdered rescheduleTrace ∧
      droppedByFilter tenTicks rescheduleTrace =
        [⟨1, 1⟩, ⟨3, 1⟩, ⟨5, 1⟩, ⟨8, 150⟩, ⟨10, 150⟩] ∧
      droppedByRfc tenTicks rescheduleTrace = [⟨1, 1⟩, ⟨3, 1⟩, ⟨5, 1⟩, ⟨8, 150⟩]) ∧
    (ClockOrdered crowdedTrace ∧
      (droppedByFilter oneTick crowdedTrace).map Item.id = [1, 3, 5, 7, 9, 10, 13, 14] ∧
      (droppedByRfc oneTick crowdedTrace).map Item.id = [1, 3, 5, 7, 9, 10, 13]) := by
  refine ⟨⟨⟨?_, ?_⟩, ?_, ?_⟩, ⟨⟨?_, ?_⟩, ?_, ?_⟩, ⟨?_, ?_⟩, ?_, ?_⟩ <;> decide +kernel
end Limen.CodelFilter
