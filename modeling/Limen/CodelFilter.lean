import Mathlib.Data.List.Induction
import Mathlib.Data.Nat.Find
import Mathlib.Data.UInt

/-! The CoDel admission filter. Clock readings and durations are integer ticks since
the Unix epoch, so the sentinel of the source is `0`; one call is one critical section. -/
namespace Limen.CodelFilter

/-- A built filter's configuration. `spacing count` stands for the library expression
`interval_ / std::sqrt(static_cast<double>(count))`. -/
structure Params where
  target : Int
  interval : Int
  spacing : UInt32 → Int
  target_pos : 0 < target
  interval_pos : 0 < interval

/-- `Builder::Build`. The two setters may have stored any duration. -/
def build (target interval : Int) (spacing : UInt32 → Int) : Except String Params :=
  if targetPos : 0 < target then
    if intervalPos : 0 < interval then .ok ⟨target, interval, spacing, targetPos, intervalPos⟩
    else .error "CodelFilter::Builder::Interval must be a positive duration"
  else .error "CodelFilter::Builder::Target must be a positive duration"

/-- The five state variables and the cumulative drop counter. -/
structure State where
  firstAboveTime : Int := 0
  dropNext : Int := 0
  count : UInt32 := 0
  lastcount : UInt32 := 0
  dropping : Bool := false
  dropCount : Int := 0
  deriving DecidableEq, Repr

def controlLaw (p : Params) (t : Int) (count : UInt32) : Int := t + p.spacing count

/-- An enqueue time in the future counts as no wait at all. -/
def sojourn (enqueueTime now : Int) : Int := max 0 (now - enqueueTime)

def okToDrop (p : Params) (s : State) (wait now : Int) : State × Bool :=
  if wait < p.target then ({ s with firstAboveTime := 0 }, false)
  else if s.firstAboveTime = 0 then ({ s with firstAboveTime := now + p.interval }, false)
  else (s, decide (s.firstAboveTime ≤ now))

/-- The recent-episode hysteresis: the count a new drop episode starts with. -/
def entryCount (p : Params) (s : State) (now : Int) : UInt32 :=
  if 1 < s.count - s.lastcount ∧ now - s.dropNext < 16 * p.interval then s.count - s.lastcount
  else 1

/-- Drop state is entered: this item is dropped and the first drop is scheduled. -/
def enter (p : Params) (s : State) (now : Int) : State :=
  { s with
    dropping := true
    count := entryCount p s now
    dropNext := controlLaw p now (entryCount p s now)
    lastcount := entryCount p s now
    dropCount := s.dropCount + 1 }

/-- A scheduled drop: the next one is scheduled from the time this one was due. -/
def advance (p : Params) (s : State) : State :=
  { s with
    count := s.count + 1
    dropNext := controlLaw p s.dropNext (s.count + 1)
    dropCount := s.dropCount + 1 }

def shouldDrop (p : Params) (s : State) (enqueueTime now : Int) : State × Bool :=
  let (s, ok) := okToDrop p s (sojourn enqueueTime now) now
  if s.dropping then
    if !ok then ({ s with dropping := false }, false)
    else if s.dropNext ≤ now then (advance p s, true)
    else (s, false)
  else if ok then (enter p s now, true)
  else (s, false)

/-- One call of `ShouldDrop` and the clock reading it takes. -/
structure Call where
  enqueueTime : Int
  now : Int
  deriving DecidableEq, Repr

/-- The filter after a sequence of calls. -/
def after (p : Params) (calls : List Call) : State :=
  calls.foldl (fun s call => (shouldDrop p s call.enqueueTime call.now).1) {}

/-- The verdict on the next call. -/
def verdict (p : Params) (calls : List Call) (call : Call) : Bool :=
  (shouldDrop p (after p calls) call.enqueueTime call.now).2

theorem after_concat (p : Params) (calls : List Call) (call : Call) :
    after p (calls ++ [call]) =
      (shouldDrop p (after p calls) call.enqueueTime call.now).1 := by
  simp only [after, List.foldl_append, List.foldl_cons, List.foldl_nil]

theorem okToDrop_below {p : Params} {s : State} {wait now : Int} (below : wait < p.target) :
    okToDrop p s wait now = ({ s with firstAboveTime := 0 }, false) := if_pos below

theorem okToDrop_first {p : Params} {s : State} {wait now : Int} (above : p.target ≤ wait)
    (unset : s.firstAboveTime = 0) :
    okToDrop p s wait now = ({ s with firstAboveTime := now + p.interval }, false) := by
  rw [okToDrop, if_neg (Int.not_lt.mpr above), if_pos unset]

theorem okToDrop_later {p : Params} {s : State} {wait now : Int} (above : p.target ≤ wait)
    (set : s.firstAboveTime ≠ 0) :
    okToDrop p s wait now = (s, decide (s.firstAboveTime ≤ now)) := by
  rw [okToDrop, if_neg (Int.not_lt.mpr above), if_neg set]

theorem okToDrop_keeps (p : Params) (s : State) (wait now : Int) :
    (okToDrop p s wait now).1 =
      { s with firstAboveTime := (okToDrop p s wait now).1.firstAboveTime } := by
  unfold okToDrop
  split
  · rfl
  · split <;> rfl

theorem okToDrop_true {p : Params} {s : State} {wait now : Int}
    (ok : (okToDrop p s wait now).2 = true) :
    okToDrop p s wait now = (s, true) ∧ p.target ≤ wait ∧ s.firstAboveTime ≠ 0 ∧
      s.firstAboveTime ≤ now := by
  rcases Int.lt_or_le wait p.target with below | above
  · rw [okToDrop_below below] at ok
    contradiction
  · by_cases unset : s.firstAboveTime = 0
    · rw [okToDrop_first above unset] at ok
      contradiction
    · rw [okToDrop_later above unset] at ok ⊢
      have late := of_decide_eq_true ok
      exact ⟨by rw [decide_eq_true late], above, unset, late⟩

theorem entryCount_pos (p : Params) (s : State) (now : Int) : 1 ≤ entryCount p s now := by
  unfold entryCount
  split
  · rename_i recent
    exact UInt32.le_of_lt recent.1
  · decide

/-- One call, by the answer of `okToDrop` and the state it finds. -/
theorem shouldDrop_cases (p : Params) (s : State) (enqueueTime now : Int) :
    let ok := okToDrop p s (sojourn enqueueTime now) now
    (ok.2 = false ∧ shouldDrop p s enqueueTime now =
        ({ s with firstAboveTime := ok.1.firstAboveTime, dropping := false }, false)) ∨
      (ok.2 = true ∧ s.dropping = true ∧ s.dropNext ≤ now ∧
        shouldDrop p s enqueueTime now = (advance p s, true)) ∨
      (ok.2 = true ∧ s.dropping = true ∧ now < s.dropNext ∧
        shouldDrop p s enqueueTime now = (s, false)) ∨
      (ok.2 = true ∧ s.dropping = false ∧
        shouldDrop p s enqueueTime now = (enter p s now, true)) := by
  intro ok
  cases answer : ok.2 with
  | false =>
    have kept := okToDrop_keeps p s (sojourn enqueueTime now) now
    refine .inl ⟨rfl, ?_⟩
    simp only [shouldDrop, answer, ok]
    rw [kept]
    cases s.dropping <;> simp
  | true =>
    obtain ⟨same, _⟩ := okToDrop_true answer
    cases dropping : s.dropping with
    | false =>
      refine .inr (.inr (.inr ⟨rfl, rfl, ?_⟩))
      simp [shouldDrop, same, dropping]
    | true =>
      by_cases due : s.dropNext ≤ now
      · refine .inr (.inl ⟨rfl, rfl, due, ?_⟩)
        simp [shouldDrop, same, dropping, due]
      · refine .inr (.inr (.inl ⟨rfl, rfl, Int.not_le.mp due, ?_⟩))
        simp [shouldDrop, same, dropping, due]

/-- What one call does to the drop state, by the answer of `okToDrop`. -/
theorem shouldDrop_spec (p : Params) (s : State) (enqueueTime now : Int) :
    let ok := okToDrop p s (sojourn enqueueTime now) now
    (shouldDrop p s enqueueTime now).1.firstAboveTime = ok.1.firstAboveTime ∧
      (shouldDrop p s enqueueTime now).1.dropping = ok.2 ∧
      ((shouldDrop p s enqueueTime now).2 = true → ok.2 = true) ∧
      (s.dropping = false → ok.2 = true → (shouldDrop p s enqueueTime now).2 = true) := by
  dsimp only
  rcases shouldDrop_cases p s enqueueTime now with
    ⟨no, done⟩ | ⟨yes, dropping, _, done⟩ | ⟨yes, dropping, _, done⟩ | ⟨yes, outside, done⟩
  · rw [done, no]
    simp
  · rw [done, yes, (okToDrop_true yes).1]
    exact ⟨rfl, dropping, fun _ => rfl, fun _ _ => rfl⟩
  · rw [done, yes, (okToDrop_true yes).1, dropping]
    simp
  · rw [done, yes, (okToDrop_true yes).1]
    exact ⟨rfl, rfl, fun _ => rfl, fun _ _ => rfl⟩

/-! ### The drop state as a condition on the history -/

def Above (p : Params) (call : Call) : Prop := p.target ≤ sojourn call.enqueueTime call.now

instance (p : Params) (call : Call) : Decidable (Above p call) :=
  inferInstanceAs (Decidable (_ ≤ _))

/-- The first call of the maximal run of calls at or above the target that ends with
the last call of the history. -/
def streakStart (p : Params) (calls : List Call) : Option Call :=
  (calls.reverse.takeWhile fun call => Above p call).getLast?

theorem streakStart_concat (p : Params) (calls : List Call) (call : Call) :
    streakStart p (calls ++ [call]) =
      if Above p call then some ((streakStart p calls).getD call) else none := by
  simp only [streakStart, List.reverse_append, List.reverse_singleton, List.singleton_append,
    List.takeWhile_cons, decide_eq_true_eq]
  split
  · rw [List.getLast?_cons]
  · rfl

theorem streakStart_mem {p : Params} {calls : List Call} {first : Call}
    (start : streakStart p calls = some first) : first ∈ calls := by
  have inRun := List.mem_of_getLast? start
  exact List.mem_reverse.mp ((List.takeWhile_prefix _).subset inRun)

/-- The deadline of the current run, with the sentinel `0` for no run. -/
def deadline (p : Params) (calls : List Call) : Int :=
  (streakStart p calls).elim 0 fun first => first.now + p.interval

theorem deadline_ne_zero {p : Params} {calls : List Call} {first : Call}
    (epoch : ∀ c ∈ calls, 0 ≤ c.now) (start : streakStart p calls = some first) :
    first.now + p.interval ≠ 0 := by
  have now := epoch first (streakStart_mem start)
  have positive := p.interval_pos
  omega

/-- `firstAboveTime` is the deadline of the current run. -/
theorem firstAboveTime_eq (p : Params) (calls : List Call) (epoch : ∀ c ∈ calls, 0 ≤ c.now) :
    (after p calls).firstAboveTime = deadline p calls := by
  induction calls using List.reverseRecOn with
  | nil => rfl
  | append_singleton calls call ih =>
    have epochBefore : ∀ c ∈ calls, 0 ≤ c.now :=
      fun c member => epoch c (List.mem_append_left _ member)
    have before := ih epochBefore
    rw [after_concat, (shouldDrop_spec p _ _ _).1, deadline, streakStart_concat]
    by_cases above : Above p call
    · rw [if_pos above]
      cases start : streakStart p calls with
      | none =>
        rw [deadline, start] at before
        rw [okToDrop_first above before]
        rfl
      | some first =>
        rw [deadline, start] at before
        rw [okToDrop_later above (before ▸ deadline_ne_zero epochBefore start)]
        exact before
    · rw [if_neg above, okToDrop_below (Int.not_le.mp above)]
      rfl

/-- The last call of the history ends a run of calls at or above the target that has
lasted for at least an interval. -/
def Sustained (p : Params) (calls : List Call) (call : Call) : Prop :=
  p.target ≤ sojourn call.enqueueTime call.now ∧
    ∃ first, streakStart p (calls ++ [call]) = some first ∧ first.now + p.interval ≤ call.now

theorem okToDrop_iff_sustained {p : Params} {calls : List Call} {call : Call}
    (epoch : ∀ c ∈ calls, 0 ≤ c.now) :
    (okToDrop p (after p calls) (sojourn call.enqueueTime call.now) call.now).2 = true ↔
      Sustained p calls call := by
  have deadlineEq := firstAboveTime_eq p calls epoch
  simp only [Sustained, streakStart_concat]
  by_cases above : Above p call
  · rw [if_pos above]
    cases start : streakStart p calls with
    | none =>
      rw [deadline, start] at deadlineEq
      rw [okToDrop_first above deadlineEq]
      -- A run that starts with this very call has lasted for no time yet.
      have positive := p.interval_pos
      have early : ¬ call.now + p.interval ≤ call.now := by omega
      simp [early]
    | some first =>
      rw [deadline, start] at deadlineEq
      rw [okToDrop_later above (deadlineEq ▸ deadline_ne_zero epoch start), deadlineEq]
      constructor
      · intro late
        exact ⟨above, first, rfl, of_decide_eq_true late⟩
      · rintro ⟨_, _, same, late⟩
        cases same
        exact decide_eq_true late
  · rw [if_neg above, okToDrop_below (Int.not_le.mp above)]
    simp

/-- The filter is in drop state exactly under sustained overload, whatever the clock
did in between. Only a call under sustained overload is dropped, and the one that
enters drop state always is. -/
theorem dropping_iff_sustained (p : Params) (calls : List Call) (call : Call)
    (epoch : ∀ c ∈ calls ++ [call], 0 ≤ c.now) :
    ((after p (calls ++ [call])).dropping = true ↔ Sustained p calls call) ∧
      (verdict p calls call = true → Sustained p calls call) ∧
      ((after p calls).dropping = false → (after p (calls ++ [call])).dropping = true →
        verdict p calls call = true) := by
  have ok_iff : _ ↔ Sustained p calls call :=
    okToDrop_iff_sustained fun c member => epoch c (List.mem_append_left _ member)
  obtain ⟨_, dropping, only, entering⟩ :=
    shouldDrop_spec p (after p calls) call.enqueueTime call.now
  rw [after_concat, dropping]
  exact ⟨ok_iff, fun dropped => ok_iff.mp (only dropped), entering⟩

/-- `interval / sqrt count` in whole ticks and at least one, for configurations that are
to be run. -/
def tickSpacing (interval : Nat) (count : UInt32) : Int :=
  max 1 (Nat.findGreatest (fun ticks => ticks ^ 2 * count.toNat ≤ interval ^ 2) interval)

def tenTicks : Params where
  target := 1
  interval := 10
  spacing := tickSpacing 10
  target_pos := by decide
  interval_pos := by decide

/-- The clock steps back during the run and drop state is left and re-entered. -/
theorem dropping_iff_sustained_skewed :
    let calls : List Call := [⟨0, 5⟩, ⟨3, 16⟩, ⟨3, 9⟩]
    (∀ c ∈ calls ++ [⟨2, 15⟩], 0 ≤ c.now) ∧ (after tenTicks calls).dropping = false ∧
      Sustained tenTicks calls ⟨2, 15⟩ ∧ verdict tenTicks calls ⟨2, 15⟩ = true := by
  intro calls
  have epoch : ∀ c ∈ calls ++ [⟨2, 15⟩], 0 ≤ c.now := by decide
  have outside : (after tenTicks calls).dropping = false := by decide
  have inside : (after tenTicks (calls ++ [⟨2, 15⟩])).dropping = true := by decide
  obtain ⟨sustained, _, entering⟩ := dropping_iff_sustained tenTicks calls ⟨2, 15⟩ epoch
  exact ⟨epoch, outside, sustained.mp inside, entering outside inside⟩
end Limen.CodelFilter
