import Limen.CodelFilter.Rfc8289

/-! When the filter and the RFC 8289 reference drop the same items. A watcher adds to the
filter the two facts it has no part in: that the queue ran empty, and that its schedule is
one drop ahead of the reference. -/
namespace Limen.CodelFilter

structure Watch where
  filter : State := {}
  /-- The queue was found empty after the last item. -/
  drained : Bool := false
  /-- The last scheduled drop was followed by an item that is not ok to drop, or by none. -/
  ahead : Bool := false

namespace Watch

/-- The filter's predicate on the next item. -/
def ok (p : Params) (w : Watch) (item : Item) (now : Int) : Bool :=
  (okToDrop p w.filter (sojourn item.enqueueTime now) now).2

def look (p : Params) (w : Watch) (item : Item) (now : Int) : Watch × Bool :=
  let (filter, drop) := shouldDrop p w.filter item.enqueueTime now
  (⟨filter, false, if w.ok p item now then w.filter.dropping && drop else w.ahead⟩, drop)

def attempt (p : Params) (now : Int) (w : Watch) : List Item → Attempt Watch
  | [] => ⟨{ w with drained := true }, [], [], none⟩
  | item :: rest =>
    let (w, drop) := w.look p item now
    if drop then
      let out := attempt p now w rest
      { out with dropped := item :: out.dropped }
    else ⟨w, rest, [], some item⟩

/-- The state before a call in which the two disciplines cannot come apart: an item after
a drain did not wait too long unless the filter was below target anyway, an episode
entered with the filter ahead is recent, or not, for both schedules, and one that another late
item is right behind starts with a spacing that has not been rounded to zero. -/
def Safe (p : Params) (w : Watch) (item : Item) (behind : Option Item) (now : Int) : Prop :=
  (w.drained = true → w.filter.firstAboveTime ≠ 0 →
      sojourn item.enqueueTime now < p.target) ∧
    (w.ahead = true → w.filter.dropping = false → w.ok p item now = true →
      1 < w.filter.count - w.filter.lastcount →
      (now - w.filter.dropNext < 16 * p.interval ↔
        now - (w.filter.dropNext - p.spacing w.filter.count) < 16 * p.interval)) ∧
    (w.filter.dropping = false → w.ok p item now = true →
      ∀ next ∈ behind, p.target ≤ sojourn next.enqueueTime now →
        0 < p.spacing (entryCount p w.filter now))

def SafeAttempt (p : Params) (now : Int) (w : Watch) : List Item → Prop
  | [] => True
  | item :: rest => w.Safe p item rest.head? now ∧
      ((w.look p item now).2 = true → SafeAttempt p now (w.look p item now).1 rest)

instance (p : Params) (w : Watch) (item : Item) (behind : Option Item) (now : Int) :
    Decidable (w.Safe p item behind now) := inferInstanceAs (Decidable (_ ∧ _ ∧ _))

instance decidableSafeAttempt (p : Params) (now : Int) (w : Watch) :
    (queue : List Item) → Decidable (w.SafeAttempt p now queue)
  | [] => .isTrue trivial
  | item :: rest =>
    have := decidableSafeAttempt p now (w.look p item now).1 rest
    inferInstanceAs (Decidable (_ ∧ _))
end Watch

/-- Every call of the trace is made in a safe state. -/
def SafeTrace (p : Params) (b : Bench Watch) : List Event → Prop
  | [] => True
  | .enqueue now :: rest => SafeTrace p (b.step (Watch.attempt p) (.enqueue now)) rest
  | .dequeue now :: rest => b.state.SafeAttempt p now b.queue ∧
      SafeTrace p (b.step (Watch.attempt p) (.dequeue now)) rest

instance decidableSafeTrace (p : Params) (b : Bench Watch) :
    (trace : List Event) → Decidable (SafeTrace p b trace)
  | [] => .isTrue trivial
  | .enqueue now :: rest => decidableSafeTrace p (b.step (Watch.attempt p) (.enqueue now)) rest
  | .dequeue now :: rest =>
    have := decidableSafeTrace p (b.step (Watch.attempt p) (.dequeue now)) rest
    inferInstanceAs (Decidable (_ ∧ _))

/-! ### Both predicates give the same answer -/

theorem sojourn_below {p : Params} {enqueueTime now : Int} :
    now - enqueueTime < p.target ↔ sojourn enqueueTime now < p.target := by
  have positive := p.target_pos
  simp only [sojourn]
  omega

theorem dodequeue_eq {p : Params} {now : Int} {s : State} {r : Rfc8289.State} (item : Item)
    (same : r.firstAboveTime = s.firstAboveTime) :
    Rfc8289.dodequeue p now r (some item) =
      ({ r with firstAboveTime :=
          (okToDrop p s (sojourn item.enqueueTime now) now).1.firstAboveTime },
        (okToDrop p s (sojourn item.enqueueTime now) now).2) := by
  simp only [Rfc8289.dodequeue, okToDrop, sojourn_below, same]
  split
  · rfl
  · split
    · rfl
    · rw [← same]

/-- One call under the watcher, by the state it finds. -/
theorem look_keeps {p : Params} {w : Watch} {item : Item} {now : Int}
    (notOk : w.ok p item now = false) :
    w.look p item now =
      (⟨{ w.filter with
          firstAboveTime :=
            (okToDrop p w.filter (sojourn item.enqueueTime now) now).1.firstAboveTime
          dropping := false }, false, w.ahead⟩, false) := by
  rcases shouldDrop_cases p w.filter item.enqueueTime now with
    ⟨_, done⟩ | ⟨yes, _⟩ | ⟨yes, _⟩ | ⟨yes, _⟩
  · simp [Watch.look, done, notOk]
  all_goals exact absurd yes (Bool.eq_false_iff.mp notOk)

theorem look_scheduled {p : Params} {w : Watch} {item : Item} {now : Int}
    (ok : w.ok p item now = true) (dropping : w.filter.dropping = true) :
    w.look p item now =
      if w.filter.dropNext ≤ now then (⟨advance p w.filter, false, true⟩, true)
      else (⟨w.filter, false, false⟩, false) := by
  rcases shouldDrop_cases p w.filter item.enqueueTime now with
    ⟨no, _⟩ | ⟨_, _, due, done⟩ | ⟨_, _, early, done⟩ | ⟨_, outside, _⟩
  · exact absurd ok (Bool.eq_false_iff.mp no)
  · simp [Watch.look, done, ok, dropping, due]
  · simp [Watch.look, done, ok, Int.not_le.mpr early]
  · rw [dropping] at outside
    contradiction

theorem look_enters {p : Params} {w : Watch} {item : Item} {now : Int}
    (ok : w.ok p item now = true) (outside : w.filter.dropping = false) :
    w.look p item now = (⟨enter p w.filter now, false, false⟩, true) := by
  rcases shouldDrop_cases p w.filter item.enqueueTime now with
    ⟨no, _⟩ | ⟨_, dropping, _⟩ | ⟨_, dropping, _⟩ | ⟨_, _, done⟩
  · exact absurd ok (Bool.eq_false_iff.mp no)
  · rw [outside] at dropping
    contradiction
  · rw [outside] at dropping
    contradiction
  · simp [Watch.look, done, ok, outside]

/-! ### The simulation -/

/-- The reference between two dequeue attempts, seen from the watched filter. -/
structure Matches (p : Params) (w : Watch) (r : Rfc8289.State) : Prop where
  count : r.count = w.filter.count
  lastcount : r.lastcount = w.filter.lastcount
  dropNext : r.dropNext =
    if w.ahead then w.filter.dropNext - p.spacing w.filter.count else w.filter.dropNext
  firstAbove : r.firstAboveTime = if w.drained then 0 else w.filter.firstAboveTime
  together : w.drained = false → w.filter.dropping = true → r.dropping = true ∧ w.ahead = false
  leaving : r.dropping = true → w.filter.dropping = true ∨ r.firstAboveTime = 0
  armed : w.filter.dropping = true → w.filter.firstAboveTime ≠ 0

theorem matches_start (p : Params) : Matches p {} {} := by
  constructor <;> simp

/-- Both did the same with the queue, and stay matched. -/
def Agrees (p : Params) (f : Attempt Watch) (g : Attempt Rfc8289.State) : Prop :=
  Matches p f.state g.state ∧ g.queue = f.queue ∧ g.dropped = f.dropped ∧
    g.delivered = f.delivered

theorem agrees_cons {p : Params} {f : Attempt Watch} {g : Attempt Rfc8289.State} (item : Item)
    (agrees : Agrees p f g) :
    Agrees p { f with dropped := item :: f.dropped } { g with dropped := item :: g.dropped } := by
  obtain ⟨matched, queue, dropped, delivered⟩ := agrees
  exact ⟨matched, queue, congrArg (item :: ·) dropped, delivered⟩

/-- Inside the drop loop both states are equal, and the packet in hand is ok to drop. -/
structure InLoop (p : Params) (now : Int) (w : Watch) (r : Rfc8289.State) : Prop where
  same : r = ⟨w.filter.firstAboveTime, w.filter.dropNext, w.filter.count, w.filter.lastcount, true⟩
  dropping : w.filter.dropping = true
  armed : w.filter.firstAboveTime ≠ 0
  late : w.filter.firstAboveTime ≤ now

theorem InLoop.ok_iff {p : Params} {now : Int} {w : Watch} {r : Rfc8289.State}
    (inLoop : InLoop p now w r) (item : Item) :
    w.ok p item now = true ↔ p.target ≤ sojourn item.enqueueTime now := by
  constructor
  · intro ok
    exact (okToDrop_true ok).2.1
  · intro above
    rw [Watch.ok, okToDrop_later above inLoop.armed]
    exact decide_eq_true inLoop.late

theorem dropLoop_left (p : Params) (now : Int) (s : Rfc8289.State) (item : Item)
    (queue : List Item) (outside : s.dropping = false) :
    Rfc8289.dropLoop p now s item queue = ⟨s, queue, [], some item⟩ := by
  cases queue <;> simp [Rfc8289.dropLoop, outside]

theorem dropLoop_agrees {p : Params} {now : Int} {w : Watch} {r : Rfc8289.State} {item : Item}
    {queue : List Item} (inLoop : InLoop p now w r)
    (above : p.target ≤ sojourn item.enqueueTime now) :
    Agrees p (w.attempt p now (item :: queue)) (Rfc8289.dropLoop p now r item queue) := by
  induction queue generalizing w r item with
  | nil =>
    have looked := look_scheduled ((inLoop.ok_iff item).mpr above) inLoop.dropping
    simp only [Watch.attempt, looked, Rfc8289.dropLoop, inLoop.same]
    by_cases due : w.filter.dropNext ≤ now
    · simp only [due, and_self, if_true, Rfc8289.dodequeue, Rfc8289.reschedule]
      refine ⟨?_, rfl, rfl, rfl⟩
      constructor <;> simp [advance, controlLaw, inLoop.armed]
    · simp only [due, false_and, if_false]
      refine ⟨?_, rfl, rfl, rfl⟩
      constructor <;> simp [inLoop.dropping, inLoop.armed]
  | cons next rest ih =>
    have looked := look_scheduled ((inLoop.ok_iff item).mpr above) inLoop.dropping
    rw [Watch.attempt, looked, Rfc8289.dropLoop, inLoop.same]
    by_cases due : w.filter.dropNext ≤ now
    · simp only [due, and_self, if_true]
      apply agrees_cons
      -- The filter has already rescheduled; the reference decides by the next packet.
      rw [dodequeue_eq (s := w.filter) next rfl]
      rcases Int.lt_or_le (sojourn next.enqueueTime now) p.target with below | nextAbove
      · have notOk : (⟨advance p w.filter, false, true⟩ : Watch).ok p next now = false := by
          rw [Watch.ok, okToDrop_below below]
        rw [okToDrop_below below, dropLoop_left _ _ _ _ _ rfl, Watch.attempt, look_keeps notOk]
        refine ⟨?_, rfl, rfl, rfl⟩
        constructor <;> simp [advance, controlLaw, Rfc8289.reschedule, okToDrop_below below]
      · rw [okToDrop_later nextAbove inLoop.armed, decide_eq_true inLoop.late]
        refine ih ⟨?_, inLoop.dropping, inLoop.armed, inLoop.late⟩ nextAbove
        simp [Rfc8289.reschedule, advance, controlLaw]
    · simp only [due, false_and, if_false]
      refine ⟨?_, rfl, rfl, rfl⟩
      constructor <;> simp [inLoop.dropping, inLoop.armed]

/-- On entry the reference delivers the next packet unseen. The filter is asked about it,
at a reading before the drop it has just scheduled, and keeps it. -/
theorem enter_agrees {p : Params} {now : Int} {w : Watch} {r : Rfc8289.State} {item : Item}
    {queue : List Item} (ok : w.ok p item now = true) (outside : w.filter.dropping = false)
    (spaced : ∀ next ∈ queue.head?, p.target ≤ sojourn next.enqueueTime now →
      0 < p.spacing (entryCount p w.filter now))
    (same : r.firstAboveTime = w.filter.firstAboveTime)
    (count : Rfc8289.entryCount p r now = entryCount p w.filter now) :
    Agrees p (w.attempt p now (item :: queue))
      ⟨Rfc8289.enter p (Rfc8289.dodequeue p now r queue.head?).1 now, queue.tail, [item],
        queue.head?⟩ := by
  obtain ⟨_, _, armed, late⟩ := okToDrop_true ok
  rw [Watch.attempt, look_enters ok outside]
  have countAfter (firstAboveTime : Int) :
      Rfc8289.entryCount p { r with firstAboveTime := firstAboveTime } now =
        entryCount p w.filter now := count
  cases queue with
  | nil =>
    refine ⟨?_, rfl, rfl, rfl⟩
    constructor <;>
      simp [Rfc8289.enter, Rfc8289.dodequeue, Watch.attempt, enter, countAfter, armed]
  | cons next rest =>
    simp only [if_true, List.head?_cons, List.tail_cons, Watch.attempt]
    rcases Int.lt_or_le (sojourn next.enqueueTime now) p.target with below | above
    · have notOk : (⟨enter p w.filter now, false, false⟩ : Watch).ok p next now = false := by
        rw [Watch.ok, okToDrop_below below]
      rw [look_keeps notOk]
      refine ⟨?_, rfl, rfl, rfl⟩
      constructor <;> simp [Rfc8289.enter, Rfc8289.dodequeue, sojourn_below, below, enter,
        countAfter, okToDrop_below below]
    · have nextOk : (⟨enter p w.filter now, false, false⟩ : Watch).ok p next now = true := by
        have entered : (enter p w.filter now).firstAboveTime ≠ 0 := armed
        rw [Watch.ok, okToDrop_later above entered]
        exact decide_eq_true late
      have early : ¬ (enter p w.filter now).dropNext ≤ now := by
        have positive := spaced next rfl above
        simp only [enter, controlLaw]
        omega
      rw [look_scheduled nextOk rfl, if_neg early, dodequeue_eq next same,
        okToDrop_later above armed]
      refine ⟨?_, rfl, rfl, rfl⟩
      constructor <;> simp [Rfc8289.enter, enter, countAfter, armed]

/-- Before an item both predicates give the same answer, also right after a drain. -/
theorem Matches.dodequeue {p : Params} {now : Int} {w : Watch} {r : Rfc8289.State} {item : Item}
    {behind : Option Item} (matched : Matches p w r) (safe : w.Safe p item behind now) :
    Rfc8289.dodequeue p now r (some item) =
      ({ r with firstAboveTime :=
          (okToDrop p w.filter (sojourn item.enqueueTime now) now).1.firstAboveTime },
        w.ok p item now) := by
  cases drained : w.drained with
  | false =>
    have same := matched.firstAbove
    rw [drained] at same
    exact dodequeue_eq item same
  | true =>
    have unset := matched.firstAbove
    rw [drained] at unset
    by_cases armed : w.filter.firstAboveTime = 0
    · exact dodequeue_eq item (unset.trans armed.symm)
    · have below := safe.1 drained armed
      simp [Rfc8289.dodequeue, Watch.ok, sojourn_below, below, okToDrop_below below]

theorem deque_agrees {p : Params} {now : Int} {w : Watch} {r : Rfc8289.State} {queue : List Item}
    (matched : Matches p w r) (safe : w.SafeAttempt p now queue) :
    Agrees p (w.attempt p now queue) (Rfc8289.deque p now r queue) := by
  cases queue with
  | nil =>
    refine ⟨?_, rfl, rfl, rfl⟩
    exact ⟨matched.count, matched.lastcount, matched.dropNext, rfl, by simp [Watch.attempt],
      by simp [Rfc8289.deque], matched.armed⟩
  | cons item rest =>
    have safe := safe.1
    rw [Rfc8289.deque, matched.dodequeue safe]
    cases ok : w.ok p item now with
    | false =>
      -- Whatever drop state the reference was in, it leaves it here.
      have kept : Agrees p (w.attempt p now (item :: rest))
          ⟨{ r with
              firstAboveTime :=
                (okToDrop p w.filter (sojourn item.enqueueTime now) now).1.firstAboveTime
              dropping := false }, rest, [], some item⟩ := by
        rw [Watch.attempt, look_keeps ok]
        refine ⟨?_, rfl, rfl, rfl⟩
        exact ⟨matched.count, matched.lastcount, matched.dropNext, rfl, by simp, by simp, by simp⟩
      cases dropping : r.dropping with
      | false => simpa [dropping] using kept
      | true => simpa [dropLoop_left] using kept
    | true =>
      obtain ⟨unchanged, above, armed, late⟩ := okToDrop_true ok
      have fresh : w.drained = false := by
        by_contra drained
        have below := safe.1 (by simpa using drained) armed
        omega
      have same : r.firstAboveTime = w.filter.firstAboveTime := by
        simpa [fresh] using matched.firstAbove
      have restored : { r with firstAboveTime := w.filter.firstAboveTime } = r := by rw [← same]
      rw [unchanged, restored]
      cases dropping : w.filter.dropping with
      | true =>
        obtain ⟨together, level⟩ := matched.together fresh dropping
        have dropNext : r.dropNext = w.filter.dropNext := by simpa [level] using matched.dropNext
        simp only [together, if_true]
        refine dropLoop_agrees ⟨?_, dropping, armed, late⟩ above
        rw [← same, ← dropNext, ← matched.count, ← matched.lastcount, ← together]
      | false =>
        have outside : r.dropping = false := by
          by_contra inside
          rcases matched.leaving (by simpa using inside) with filter | reset
          · rw [dropping] at filter
            contradiction
          · exact armed (same ▸ reset)
        simp only [outside, Bool.false_eq_true, if_false, if_true]
        apply enter_agrees ok dropping (safe.2.2 dropping ok) same
        simp only [Rfc8289.entryCount, entryCount, matched.count, matched.lastcount]
        by_cases grown : 1 < w.filter.count - w.filter.lastcount
        · have recent := safe.2.1
          rw [matched.dropNext]
          cases ahead : w.ahead with
          | false => rfl
          | true => simp only [grown, true_and, if_true, (recent ahead dropping ok grown)]
        · simp only [grown, false_and, if_false]

/-! ### Whole traces -/

theorem attempt_watched (p : Params) (now : Int) (w : Watch) (queue : List Item) :
    let f := w.attempt p now queue
    attempt p now w.filter queue = ⟨f.state.filter, f.queue, f.dropped, f.delivered⟩ := by
  induction queue generalizing w with
  | nil => rfl
  | cons item rest ih =>
    have filter : (w.look p item now).1.filter = (shouldDrop p w.filter item.enqueueTime now).1 := rfl
    have drop : (w.look p item now).2 = (shouldDrop p w.filter item.enqueueTime now).2 := rfl
    simp only [attempt, Watch.attempt]
    rw [drop, ← filter]
    split
    · rw [ih]
    · rfl

/-- The three benches after the same trace. -/
structure Aligned (p : Params) (f : Bench State) (w : Bench Watch) (r : Bench Rfc8289.State) :
    Prop where
  filter : f = ⟨w.state.filter, w.queue, w.arrivals, w.dropped⟩
  state : Matches p w.state r.state
  queue : r.queue = w.queue
  arrivals : r.arrivals = w.arrivals
  dropped : r.dropped = w.dropped

theorem aligned_enqueue {p : Params} {f : Bench State} {w : Bench Watch} {r : Bench Rfc8289.State}
    (aligned : Aligned p f w r) (now : Int) :
    Aligned p (f.step (attempt p) (.enqueue now)) (w.step (Watch.attempt p) (.enqueue now))
      (r.step (Rfc8289.deque p) (.enqueue now)) where
  filter := by rw [aligned.filter]; rfl
  state := aligned.state
  queue := by simp only [Bench.step, aligned.queue, aligned.arrivals]
  arrivals := by simp only [Bench.step, aligned.arrivals]
  dropped := aligned.dropped

theorem aligned_dequeue {p : Params} {f : Bench State} {w : Bench Watch} {r : Bench Rfc8289.State}
    {now : Int} (aligned : Aligned p f w r) (safe : w.state.SafeAttempt p now w.queue) :
    Aligned p (f.step (attempt p) (.dequeue now)) (w.step (Watch.attempt p) (.dequeue now))
      (r.step (Rfc8289.deque p) (.dequeue now)) := by
  obtain ⟨matched, queue, dropped, _⟩ := deque_agrees aligned.state safe
  have watched := attempt_watched p now w.state w.queue
  constructor
  · rw [aligned.filter]
    simp only [Bench.step, watched]
  · simpa only [Bench.step, aligned.queue] using matched
  · simpa only [Bench.step, aligned.queue] using queue
  · exact aligned.arrivals
  · simp only [Bench.step, aligned.queue, aligned.dropped, dropped]

theorem aligned_trace {p : Params} {f : Bench State} {w : Bench Watch} {r : Bench Rfc8289.State}
    {trace : List Event} (aligned : Aligned p f w r) (safe : SafeTrace p w trace) :
    (trace.foldl (Bench.step (attempt p)) f).dropped =
      (trace.foldl (Bench.step (Rfc8289.deque p)) r).dropped := by
  induction trace generalizing f w r with
  | nil => rw [List.foldl_nil, List.foldl_nil, aligned.filter, aligned.dropped]
  | cons event trace ih =>
    rw [List.foldl_cons, List.foldl_cons]
    cases event with
    | enqueue now => exact ih (aligned_enqueue aligned now) safe
    | dequeue now => exact ih (aligned_dequeue aligned safe.1) safe.2

/-- On every trace whose calls are all made in a safe state, the filter drops exactly the
items that the RFC 8289 reference drops. -/
theorem droppedByFilter_eq_droppedByRfc (p : Params) (trace : List Event)
    (safe : SafeTrace p ⟨{}, [], 0, []⟩ trace) :
    droppedByFilter p trace = droppedByRfc p trace :=
  aligned_trace ⟨rfl, matches_start p, rfl, rfl, rfl⟩ safe

/-- The filter ends an episode ahead of the reference, and comes back to it long after. -/
def lateReturnTrace : List Event :=
  rescheduleTrace.take 16 ++ [.dequeue 280, .dequeue 290]

theorem lateReturnTrace_agrees :
    SafeTrace tenTicks ⟨{}, [], 0, []⟩ lateReturnTrace ∧
      droppedByFilter tenTicks lateReturnTrace = [⟨1, 1⟩, ⟨3, 1⟩, ⟨5, 1⟩, ⟨8, 150⟩] ∧
      droppedByFilter tenTicks lateReturnTrace = droppedByRfc tenTicks lateReturnTrace := by
  have safe : SafeTrace tenTicks ⟨{}, [], 0, []⟩ lateReturnTrace := by decide
  exact ⟨safe, by decide, droppedByFilter_eq_droppedByRfc tenTicks _ safe⟩
end Limen.CodelFilter
