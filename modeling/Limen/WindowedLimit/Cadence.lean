import Limen.WindowedLimit.Boundaries

/-! What the delegate is fed, and how often: whichever threads take the boundaries, its calls are
a minimum window apart. -/
namespace Limen.WindowedLimit
open Transition State
variable {W α τ ρ : Type}

/-- Values that grow by more than `gap` each time, in an interval of limited width. -/
theorem length_mul_lt_of_spaced {gap first last : Int} (positive : 0 < gap) (ordered : first ≤ last)
    {values : List Int} (spaced : values.Pairwise fun a b => a + gap < b)
    (inside : ∀ v ∈ values, first < v ∧ v ≤ last) : values.length * gap < last - first + gap := by
  induction values generalizing first with
  | nil =>
    simp only [List.length_nil, Nat.cast_zero, Int.zero_mul]
    omega
  | cons v rest ih =>
    obtain ⟨next, later⟩ := List.pairwise_cons.mp spaced
    obtain ⟨above, below⟩ := inside v List.mem_cons_self
    rcases rest.eq_nil_or_concat' with rfl | ⟨_, w, split⟩
    · simp only [List.length_singleton, Nat.cast_one, Int.one_mul]
      omega
    · have there : w ∈ rest := by simp [split]
      have past := next w there
      have room : v + gap ≤ last :=
        (Int.le_of_lt past).trans (inside w (List.mem_cons_of_mem _ there)).2
      have fewer := ih room later fun u member =>
        ⟨next u member, (inside u (List.mem_cons_of_mem _ member)).2⟩
      rw [List.length_cons, Nat.cast_succ, Int.add_mul, Int.one_mul]
      omega

/-- The sample that a call passes to the delegate if its next operation takes it to `point`. -/
def Call.delivers? (call : Call α τ ρ) (point : Point α τ ρ) : Option Sample :=
  match call.point, point with
  | .boundary _ read .callDelegate, .boundary _ _ .inDelegate =>
    some ⟨call.sample.startTimeNs, read.trackedRtt, read.maxInflight, read.didDropInWindow⟩
  | _, _ => none

def Operation.delivers? (op : Operation α τ ρ) : Option Sample :=
  Call.delivers? ⟨op.sample, op.before⟩ op.after

theorem Operation.isSome_delivers? (op : Operation α τ ρ) :
    op.delivers?.isSome = op.delegates := by
  obtain ⟨call, sample, before, after, due⟩ := op
  cases before with
  | boundary old read stage =>
    cases stage with
    | callDelegate =>
      cases after with
      | boundary old read stage => cases stage <;> rfl
      | _ => rfl
    | _ => rfl
  | _ => rfl

/-- The calls of the delegate, in order. -/
def fed (log : List (Operation α τ ρ)) : List Sample := log.filterMap Operation.delivers?

theorem fed_append (log more : List (Operation α τ ρ)) : fed (log ++ more) = fed log ++ fed more :=
  List.filterMap_append

theorem length_fed (log : List (Operation α τ ρ)) :
    (fed log).length = log.countP Operation.delegates := by
  rw [fed, List.length_filterMap_eq_countP]
  exact congrArg log.countP (funext Operation.isSome_delivers?)

def Operation.endsIn (first last : Int) (op : Operation α τ ρ) : Bool :=
  first < op.sample.startTimeNs + op.sample.rttNs ∧ op.sample.startTimeNs + op.sample.rttNs ≤ last

section Cadence
variable [AtomicWindow W α τ ρ] {c : Config} {factory : W} {s : State W α τ ρ} {es : List Event}

/-- Each delegate call belongs to a boundary of its own. -/
theorem countP_delegates_le (ran : run (step c) (start factory) es = some s) (first last : Int) :
    (operations c factory es).countP (fun op => op.endsIn first last && op.delegates) ≤
      ((boundaries (operations c factory es)).filter (·.endsIn first last)).length := by
  obtain ⟨once, own⟩ := run_delegations ran
  have logged := run_logged ran
  rw [List.countP_eq_length_filter, ← List.filter_filter, ← List.length_map Operation.call,
    ← List.length_map Operation.call]
  refine (List.subperm_of_subset (once.sublist (List.filter_sublist.map _)) ?_).length_le
  intro i member
  obtain ⟨op, inside, rfl⟩ := List.mem_map.mp member
  obtain ⟨delegating, within⟩ := List.mem_filter.mp inside
  obtain ⟨a, taken, same⟩ := own op.call (List.mem_map_of_mem delegating)
  have there : a ∈ operations c factory es := List.mem_of_mem_filter (List.mem_of_mem_filter taken)
  obtain ⟨call, found, sampled, _⟩ := logged.made op (List.mem_of_mem_filter delegating)
  obtain ⟨call', found', sampled', _⟩ := logged.made a there
  rw [same, found, Option.some.injEq] at found'
  rw [← found', sampled] at sampled'
  refine List.mem_map.mpr ⟨a, List.mem_filter.mpr ⟨taken, ?_⟩, same⟩
  rwa [Operation.endsIn, ← sampled']

theorem mem_of_mem_boundaries {log : List (Operation α τ ρ)} {op : Operation α τ ρ}
    (taken : op ∈ boundaries log) : op ∈ log :=
  List.mem_of_mem_filter (List.mem_of_mem_filter taken)

theorem boundaries_paced (ran : run (step c) (start factory) es = some s)
    (exact : Along (step c) (DeadlinesFit c) (start factory) es) {first last : Int}
    (ordered : first ≤ last) :
    ((boundaries (operations c factory es)).filter (·.endsIn first last)).length *
      c.minWindowTimeNs < last - first + c.minWindowTimeNs := by
  have exact := throughout_of_along exact
  have spaced : ((boundaries (operations c factory es)).map fun op =>
      op.sample.startTimeNs + op.sample.rttNs).Pairwise fun a b => a + c.minWindowTimeNs < b := by
    rw [List.pairwise_map]
    refine (run_spaced ran exact).imp_of_mem ?_
    rintro a b before after ⟨candidate, _, apart⟩
    have length := minWindowTimeNs_le c candidate
    rw [run_exact ran exact (mem_of_mem_boundaries before),
      run_exact ran exact (mem_of_mem_boundaries after)] at apart
    omega
  rw [← List.length_map fun op => op.sample.startTimeNs + op.sample.rttNs]
  refine length_mul_lt_of_spaced c.minWindowTime_pos ordered
    (spaced.sublist (List.filter_sublist.map _)) fun v there => ?_
  obtain ⟨op, inside, rfl⟩ := List.mem_map.mp there
  simpa [Operation.endsIn] using (List.mem_filter.mp inside).2

/-- However many samples arrive and whichever threads they arrive on, the delegate is called
less than once more than the minimum window fits into the time in which the samples of the calls
end. -/
theorem delegate_paced (c : Config) (factory : W) (es : List Event) (s : State W α τ ρ)
    (ran : run (step c) (start factory) es = some s)
    (exact : Along (step c) (DeadlinesFit c) (start factory) es) (first last : Int)
    (ordered : first ≤ last) :
    (operations c factory es).countP (fun op => op.endsIn first last && op.delegates) *
      c.minWindowTimeNs < last - first + c.minWindowTimeNs := by
  have few := Int.ofNat_le.mpr (countP_delegates_le ran first last)
  have scaled := Int.mul_le_mul_of_nonneg_right few c.minWindowTime_pos.le
  exact Int.lt_of_le_of_lt scaled (boundaries_paced ran exact ordered)

/-- Where all samples end in an interval, that counts every call of the delegate. -/
theorem length_fed_le (ran : run (step c) (start factory) es = some s)
    (exact : Along (step c) (DeadlinesFit c) (start factory) es) {first : Int} {n : Nat}
    (within : ∀ (i : Nat) call, s.calls[i]? = some call →
      first < call.sample.startTimeNs + call.sample.rttNs ∧
        call.sample.startTimeNs + call.sample.rttNs ≤ first + n * c.minWindowTimeNs) :
    (fed (operations c factory es)).length ≤ n := by
  have positive := c.minWindowTime_pos
  have ordered : first ≤ first + n * c.minWindowTimeNs :=
    Int.le_add_of_nonneg_right (Int.mul_nonneg (Int.natCast_nonneg n) positive.le)
  have all : (operations c factory es).countP Operation.delegates =
      (operations c factory es).countP fun op =>
        op.endsIn first (first + n * c.minWindowTimeNs) && op.delegates := by
    refine List.countP_congr fun op member => ?_
    obtain ⟨call, found, sampled, _⟩ := (run_logged ran).made op member
    have inside := within op.call call found
    rw [sampled] at inside
    simp [Operation.endsIn, inside]
  rw [length_fed, all]
  refine (countP_delegates_le ran first _).trans (Nat.le_of_lt_succ (Int.ofNat_lt.mp ?_))
  have paced := boundaries_paced ran exact ordered
  refine Int.lt_of_mul_lt_mul_right (a := c.minWindowTimeNs) ?_ positive.le
  calc _ < first + n * c.minWindowTimeNs - first + c.minWindowTimeNs := paced
    _ = ((n.succ : Nat) : Int) * c.minWindowTimeNs := by
      rw [Nat.cast_succ, Int.add_mul, Int.one_mul]
      omega
end Cadence

/-- The boundaries of the first and the third call, at 5 and at 26. -/
theorem contested_paced :
    (operations quickWindows ({} : AverageSampleWindow) contested).countP
        (fun op => op.endsIn 0 26 && op.delegates) = 2 ∧
      ((2 : Nat) : Int) * quickWindows.minWindowTimeNs < 26 - 0 + quickWindows.minWindowTimeNs := by
  have reached : (run (step quickWindows) (start ({} : AverageSampleWindow)) contested).isSome := by
    decide +kernel
  obtain ⟨s, ran⟩ := Option.isSome_iff_exists.mp reached
  have two : (operations quickWindows ({} : AverageSampleWindow) contested).countP
      (fun op => op.endsIn 0 26 && op.delegates) = 2 := by decide +kernel
  have paced := delegate_paced quickWindows ({} : AverageSampleWindow) contested s ran
    (by decide +kernel) 0 26 (by decide)
  rw [two] at paced
  exact ⟨two, paced⟩
end Limen.WindowedLimit
