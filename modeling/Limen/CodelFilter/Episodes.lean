import Limen.CodelFilter
import Limen.Transition
import Mathlib.Algebra.BigOperators.Intervals

/-! Drop episodes. An episode is entered with a drop, makes further drops on a schedule that is
chained from its own deadlines, and leaves the number of those drops to the next one. -/
namespace Limen.CodelFilter
open Transition
variable {p : Params} {s : State} {call : Call} {calls before later : List Call}

/-- What a call does: it lets the item pass, makes a scheduled drop, or enters an episode. -/
inductive Effect where
  | kept
  | scheduled
  | entered
  deriving DecidableEq, Repr

def effect (p : Params) (s : State) (call : Call) : Effect :=
  if (shouldDrop p s call.enqueueTime call.now).2 then
    if s.dropping then .scheduled else .entered
  else .kept

/-- Calls as steps of a run; every call is possible in every state. -/
def step (p : Params) (s : State) (call : Call) : Option State :=
  some (shouldDrop p s call.enqueueTime call.now).1

def effects (p : Params) (s : State) (calls : List Call) : List Effect :=
  observe (step p) (fun s call _ => [effect p s call]) s calls

/-- What the calls return. -/
def verdicts (p : Params) (s : State) (calls : List Call) : List Bool :=
  observe (step p) (fun s call _ => [(shouldDrop p s call.enqueueTime call.now).2]) s calls

/-- The scheduled drops since the last entry. -/
def postEntryDrops (p : Params) (calls : List Call) : Nat :=
  ((effects p {} calls).reverse.takeWhile (· ≠ .entered)).count .scheduled

/-- The counter has room for the drop, if one is due. -/
def Fits (p : Params) (s : State) (call : Call) : Prop :=
  s.dropping = true → (okToDrop p s (sojourn call.enqueueTime call.now) call.now).2 = true →
    s.dropNext ≤ call.now → s.count.toNat + 1 < 2 ^ 32

theorem run_after (p : Params) (before calls : List Call) :
    run (step p) (after p before) calls = some (after p (before ++ calls)) := by
  induction calls using List.reverseRecOn with
  | nil => rw [List.append_nil, run]
  | append_singleton calls call ih =>
    rw [run_append, ih, Option.bind_some, run_single, ← List.append_assoc, after_concat, step]

theorem effects_concat (p : Params) (before calls : List Call) (call : Call) :
    effects p (after p before) (calls ++ [call]) =
      effects p (after p before) calls ++ [effect p (after p (before ++ calls)) call] :=
  observe_concat (run_after p before calls) rfl

theorem effects_append (p : Params) (before calls more : List Call) :
    effects p (after p before) (calls ++ more) =
      effects p (after p before) calls ++ effects p (after p (before ++ calls)) more :=
  observe_append (run_after p before calls) more

theorem verdicts_concat (p : Params) (calls : List Call) (call : Call) :
    verdicts p {} (calls ++ [call]) = verdicts p {} calls ++ [verdict p calls call] :=
  observe_concat (run_after p [] calls) rfl

/-- A call, by its effect. -/
theorem effect_cases (p : Params) (s : State) (call : Call) :
    (effect p s call = .kept ∧ ∃ firstAboveTime dropping,
        shouldDrop p s call.enqueueTime call.now = ({ s with firstAboveTime, dropping }, false) ∧
          (dropping = true → s.dropping = true)) ∨
      (effect p s call = .scheduled ∧ s.dropping = true ∧ s.dropNext ≤ call.now ∧
        shouldDrop p s call.enqueueTime call.now = (advance p s, true)) ∨
      (effect p s call = .entered ∧ s.dropping = false ∧
        shouldDrop p s call.enqueueTime call.now = (enter p s call.now, true)) := by
  rcases shouldDrop_cases p s call.enqueueTime call.now with
    ⟨_, done⟩ | ⟨_, inside, due, done⟩ | ⟨_, inside, _, done⟩ | ⟨_, outside, done⟩
  · refine .inl ⟨?_, _, false, done, by simp⟩
    simp [effect, done]
  · refine .inr (.inl ⟨?_, inside, due, done⟩)
    simp [effect, done, inside]
  · refine .inl ⟨?_, s.firstAboveTime, s.dropping, done, id⟩
    simp [effect, done]
  · refine .inr (.inr ⟨?_, outside, done⟩)
    simp [effect, done, outside]

theorem shouldDrop_entered (entered : effect p s call = .entered) :
    shouldDrop p s call.enqueueTime call.now = (enter p s call.now, true) := by
  rcases effect_cases p s call with ⟨other, _⟩ | ⟨other, _⟩ | ⟨_, _, done⟩
  · rw [entered] at other
    contradiction
  · rw [entered] at other
    contradiction
  · exact done

theorem due_of_scheduled (scheduled : effect p s call = .scheduled) : s.dropNext ≤ call.now := by
  rcases effect_cases p s call with ⟨other, _⟩ | ⟨_, _, due, _⟩ | ⟨other, _⟩
  · rw [scheduled] at other
    contradiction
  · exact due
  · rw [scheduled] at other
    contradiction

theorem after_entered {entry : Call} (entered : effect p (after p before) entry = .entered) :
    after p (before ++ [entry]) = enter p (after p before) entry.now := by
  rw [after_concat, shouldDrop_entered entered]

theorem fits_iff : Fits p s call ↔ effect p s call = .scheduled → s.count.toNat + 1 < 2 ^ 32 := by
  rw [Fits]
  rcases shouldDrop_cases p s call.enqueueTime call.now with
    ⟨notOk, done⟩ | ⟨ok, inside, due, done⟩ | ⟨_, _, early, done⟩ | ⟨_, outside, done⟩
  · simp [effect, done, notOk]
  · simp [effect, done, ok, inside, due]
  · simp [effect, done, Int.not_le.mpr early]
  · simp [effect, done, outside]

theorem toNat_succ {count : UInt32} (room : count.toNat + 1 < 2 ^ 32) :
    (count + 1).toNat = count.toNat + 1 := by
  rw [UInt32.toNat_add]
  exact Nat.mod_eq_of_lt room

/-! ### The schedule of an episode -/

/-- The state after `k` further drops of an episode entered at `entry` with the count `first`. -/
structure OnSchedule (step : Nat → Int) (entry : Int) (first : UInt32) (k : Nat) (s : State) :
    Prop where
  count : s.count.toNat = first.toNat + k
  dropNext : s.dropNext = entry + ∑ i ∈ Finset.range (k + 1), step (first.toNat + i)

section Schedule
variable {law : Nat → Int} {entry : Int} {first : UInt32} {k : Nat}

theorem onSchedule_enter (follows : ∀ count : UInt32, p.spacing count = law count.toNat)
    (s : State) (now : Int) : OnSchedule law now (enter p s now).count 0 (enter p s now) := by
  constructor
  · rfl
  · simp [enter, controlLaw, follows]

theorem OnSchedule.advance (follows : ∀ count : UInt32, p.spacing count = law count.toNat)
    (onSchedule : OnSchedule law entry first k s) (room : s.count.toNat + 1 < 2 ^ 32) :
    OnSchedule law entry first (k + 1) (advance p s) := by
  have count := onSchedule.count
  have next : (s.count + 1).toNat = first.toNat + (k + 1) := by
    rw [toNat_succ room]
    omega
  constructor
  · exact next
  · rw [CodelFilter.advance, controlLaw, follows, next, onSchedule.dropNext,
      Finset.sum_range_succ _ (k + 1)]
    exact Int.add_assoc ..

theorem after_onSchedule (follows : ∀ count : UInt32, p.spacing count = law count.toNat)
    {opening : Call} (entered : effect p (after p before) opening = .entered)
    (same : .entered ∉ effects p (after p (before ++ [opening])) later)
    (noWrap : (after p (before ++ [opening])).count.toNat +
      (effects p (after p (before ++ [opening])) later).count .scheduled < 2 ^ 32) :
    OnSchedule law opening.now (after p (before ++ [opening])).count
      ((effects p (after p (before ++ [opening])) later).count .scheduled)
      (after p (before ++ [opening] ++ later)) := by
  induction later using List.reverseRecOn with
  | nil =>
    rw [List.append_nil, after_entered entered]
    exact onSchedule_enter follows _ _
  | append_singleton later call ih =>
    rw [effects_concat] at same noWrap ⊢
    rw [List.count_append] at noWrap ⊢
    have onSchedule := ih (fun member => same (List.mem_append_left _ member)) (by omega)
    rw [← List.append_assoc, after_concat p (before ++ [opening] ++ later)]
    rcases effect_cases p (after p (before ++ [opening] ++ later)) call with
      ⟨kept, firstAboveTime, dropping, done, _⟩ | ⟨scheduled, _, _, done⟩ | ⟨other, _⟩
    · rw [kept, done]
      exact ⟨onSchedule.count, onSchedule.dropNext⟩
    · rw [scheduled, List.count_singleton_self] at noWrap ⊢
      rw [done]
      refine onSchedule.advance follows ?_
      rw [onSchedule.count]
      omega
    · rw [other] at same
      exact absurd (List.mem_append_right _ (List.mem_singleton_self _)) same
end Schedule

/-- After `k` further drops of an episode the next one is due at the entry time plus the first
`k + 1` steps of the control law, whenever the calls came; none is made before it, and a call
at or after it is dropped as long as the drop condition holds. -/
theorem schedule_fixed_at_entry (p : Params) (law : Nat → Int)
    (follows : ∀ count : UInt32, p.spacing count = law count.toNat) (before later : List Call)
    (entry : Call) (entered : effect p (after p before) entry = .entered)
    (same : .entered ∉ effects p (after p (before ++ [entry])) later)
    (noWrap : (after p (before ++ [entry])).count.toNat +
      (effects p (after p (before ++ [entry])) later).count .scheduled < 2 ^ 32) :
    let first := (after p (before ++ [entry])).count.toNat
    let k := (effects p (after p (before ++ [entry])) later).count .scheduled
    let calls := before ++ [entry] ++ later
    let due := entry.now + ∑ i ∈ Finset.range (k + 1), law (first + i)
    (after p calls).dropNext = due ∧
      ∀ call,
        (effect p (after p calls) call = .scheduled → due ≤ call.now) ∧
        ((after p calls).dropping = true →
          (okToDrop p (after p calls) (sojourn call.enqueueTime call.now) call.now).2 = true →
          due ≤ call.now → verdict p calls call = true) := by
  intro first k calls due
  have dropNext : (after p calls).dropNext = due :=
    (after_onSchedule follows entered same noWrap).dropNext
  refine ⟨dropNext, fun call => ⟨?_, ?_⟩⟩
  · intro scheduled
    exact dropNext ▸ due_of_scheduled scheduled
  · intro dropping ok late
    rw [verdict]
    rcases shouldDrop_cases p (after p calls) call.enqueueTime call.now with
      ⟨notOk, _⟩ | ⟨_, _, _, done⟩ | ⟨_, _, early, _⟩ | ⟨_, outside, _⟩
    · rw [ok] at notOk
      contradiction
    · rw [done]
    · rw [dropNext] at early
      exact absurd late (Int.not_le.mpr early)
    · rw [dropping] at outside
      contradiction

/-- An episode of `tenTicks` entered at 15, with three further drops: two long overdue, and one
right after them. -/
theorem tenTicks_schedule :
    (after tenTicks ([⟨0, 5⟩] ++ [⟨0, 15⟩] ++ [⟨0, 16⟩, ⟨0, 60⟩, ⟨0, 60⟩, ⟨0, 61⟩])).dropNext =
      15 + (10 + 7 + 5 + 5) := by
  have scheduled := schedule_fixed_at_entry tenTicks (fun n => tickSpacing 10 (.ofNat n))
    (fun count => by rw [UInt32.ofNat_toNat]; rfl) [⟨0, 5⟩] [⟨0, 16⟩, ⟨0, 60⟩, ⟨0, 60⟩, ⟨0, 61⟩]
    ⟨0, 15⟩ (by decide) (by decide) (by decide)
  exact scheduled.1.trans (by decide)

/-! ### The counters from episode to episode -/

theorem postEntryDrops_concat (p : Params) (calls : List Call) (call : Call) :
    postEntryDrops p (calls ++ [call]) =
      match effect p (after p calls) call with
      | .kept => postEntryDrops p calls
      | .scheduled => postEntryDrops p calls + 1
      | .entered => 0 := by
  have observed : effects p {} (calls ++ [call]) =
      effects p {} calls ++ [effect p (after p calls) call] := effects_concat p [] calls call
  rw [postEntryDrops, observed, List.reverse_append, List.reverse_singleton, List.singleton_append]
  cases effect p (after p calls) call <;> simp [postEntryDrops]

/-- `count_` is ahead of `lastcount_` by the scheduled drops since the last entry. -/
theorem count_eq (fits : Along (step p) (Fits p) {} calls) :
    (after p calls).count.toNat = (after p calls).lastcount.toNat + postEntryDrops p calls := by
  induction calls using List.reverseRecOn with
  | nil => rfl
  | append_singleton calls call ih =>
    have counted := ih fits.left
    have room : Fits p (after p calls) call := (fits.right (run_after p [] calls)).1
    rw [after_concat, postEntryDrops_concat]
    rcases effect_cases p (after p calls) call with
      ⟨kept, firstAboveTime, dropping, done, _⟩ | ⟨scheduled, _, _, done⟩ | ⟨entered, _, done⟩
    · rw [kept, done]
      exact counted
    · rw [scheduled, done]
      change ((after p calls).count + 1).toNat = _
      rw [toNat_succ (fits_iff.mp room scheduled), counted]
      rfl
    · rw [entered, done]
      rfl

/-- Until the next entry, `lastcount_` is what the last one left there. -/
theorem lastcount_eq {entry : Call} (entered : effect p (after p before) entry = .entered)
    (same : .entered ∉ effects p (after p (before ++ [entry])) later) :
    (after p (before ++ [entry] ++ later)).lastcount = (after p (before ++ [entry])).count := by
  induction later using List.reverseRecOn with
  | nil =>
    rw [List.append_nil, after_entered entered]
    rfl
  | append_singleton later call ih =>
    rw [effects_concat] at same
    have still := ih fun member => same (List.mem_append_left _ member)
    rw [← List.append_assoc, after_concat p (before ++ [entry] ++ later), ← still]
    rcases effect_cases p (after p (before ++ [entry] ++ later)) call with
      ⟨_, firstAboveTime, dropping, done, _⟩ | ⟨_, _, _, done⟩ | ⟨other, _⟩
    · rw [done]
    · rw [done]
      rfl
    · rw [other] at same
      exact absurd (List.mem_append_right _ (List.mem_singleton_self _)) same

theorem postEntryDrops_eq {entry : Call} (entered : effect p (after p before) entry = .entered)
    (same : .entered ∉ effects p (after p (before ++ [entry])) later) :
    postEntryDrops p (before ++ [entry] ++ later) =
      (effects p (after p (before ++ [entry])) later).count .scheduled := by
  have observed : effects p {} (before ++ [entry] ++ later) =
      effects p {} before ++ [.entered] ++ effects p (after p (before ++ [entry])) later := by
    rw [← entered]
    exact (effects_append p [] (before ++ [entry]) later).trans
      (congrArg (· ++ _) (effects_concat p [] before entry))
  have others : ∀ e ∈ (effects p (after p (before ++ [entry])) later).reverse, e ≠ .entered := by
    rintro e member rfl
    exact same (List.mem_reverse.mp member)
  rw [postEntryDrops, observed, List.reverse_append, List.reverse_append, List.reverse_singleton,
    List.takeWhile_append_of_pos (by simpa using others)]
  simp

/-- There is no drop state, and no scheduled drop, before the first entry. -/
theorem unentered (never : .entered ∉ effects p {} calls) :
    (after p calls).dropping = false ∧ postEntryDrops p calls = 0 := by
  induction calls using List.reverseRecOn with
  | nil => exact ⟨rfl, rfl⟩
  | append_singleton calls call ih =>
    have observed : effects p {} (calls ++ [call]) =
        effects p {} calls ++ [effect p (after p calls) call] := effects_concat p [] calls call
    rw [observed] at never
    obtain ⟨outside, none⟩ := ih fun member => never (List.mem_append_left _ member)
    rw [after_concat, postEntryDrops_concat]
    rcases effect_cases p (after p calls) call with
      ⟨kept, firstAboveTime, dropping, done, only⟩ | ⟨_, inside, _⟩ | ⟨entered, _⟩
    · rw [kept, done]
      refine ⟨?_, none⟩
      cases dropping with
      | false => rfl
      | true => exact absurd (only rfl) (by simp [outside])
    · rw [outside] at inside
      contradiction
    · rw [entered] at never
      exact absurd (List.mem_append_right _ (List.mem_singleton_self _)) never

/-- The count an episode starts with, as the previous one has left it. -/
theorem entryCount_toNat {drops : Nat} (counted : s.count.toNat = s.lastcount.toNat + drops)
    (now : Int) :
    (entryCount p s now).toNat =
      if 1 < drops ∧ now - s.dropNext < 16 * p.interval then drops else 1 := by
  have le : s.lastcount ≤ s.count := by
    rw [UInt32.le_iff_toNat_le]
    omega
  have delta : (s.count - s.lastcount).toNat = drops := by
    rw [UInt32.toNat_sub_of_le _ _ le]
    omega
  have grown : 1 < s.count - s.lastcount ↔ 1 < drops := by
    rw [UInt32.lt_iff_toNat_lt, delta]
    rfl
  simp only [entryCount, grown]
  split
  · exact delta
  · rfl

theorem dropCount_eq (p : Params) (calls : List Call) :
    (after p calls).dropCount = (verdicts p {} calls).count true := by
  induction calls using List.reverseRecOn with
  | nil => rfl
  | append_singleton calls call ih =>
    rw [after_concat, verdicts_concat, List.count_append, verdict]
    push_cast
    rw [← ih]
    rcases effect_cases p (after p calls) call with
      ⟨_, firstAboveTime, dropping, done, _⟩ | ⟨_, _, _, done⟩ | ⟨_, _, done⟩ <;> rw [done]
    · simp
    · simp [advance]
    · simp [enter]

/-- In a run in which the counter does not come round: in and after an episode, `lastcount_` is
the count it was entered with and `count_` is ahead by its further drops; an entry takes
over the further drops of the previous episode, if they are more than one and recent;
and every drop is counted. -/
theorem hysteresis_over_history (p : Params) (calls : List Call)
    (fits : Along (step p) (Fits p) {} calls) :
    (∀ before entry later, calls = before ++ [entry] ++ later →
      effect p (after p before) entry = .entered →
      .entered ∉ effects p (after p (before ++ [entry])) later →
      (after p calls).lastcount = (after p (before ++ [entry])).count ∧
        (after p calls).count.toNat = (after p calls).lastcount.toNat +
          (effects p (after p (before ++ [entry])) later).count .scheduled) ∧
    (∀ before entry later, calls = before ++ [entry] ++ later →
      effect p (after p before) entry = .entered →
      (after p (before ++ [entry])).count.toNat =
        if 1 < postEntryDrops p before ∧
            entry.now - (after p before).dropNext < 16 * p.interval then postEntryDrops p before
        else 1) ∧
    (.entered ∉ effects p {} calls → postEntryDrops p calls = 0) ∧
    (after p calls).dropCount = (verdicts p {} calls).count true := by
  refine ⟨?_, ?_, fun never => (unentered never).2, dropCount_eq p calls⟩
  · rintro before entry later rfl entered same
    refine ⟨lastcount_eq entered same, ?_⟩
    rw [← postEntryDrops_eq entered same]
    exact count_eq fits
  · rintro before entry later rfl entered
    rw [after_entered entered]
    exact entryCount_toNat (count_eq fits.left.left) entry.now

instance (p : Params) (s : State) (call : Call) : Decidable (Fits p s call) :=
  inferInstanceAs (Decidable (_ → _ → _ → _))

/-- An episode with three further drops, and a call that ends it. -/
def firstEpisode : List Call := [⟨0, 5⟩, ⟨0, 15⟩, ⟨0, 60⟩, ⟨0, 60⟩, ⟨0, 61⟩, ⟨61, 61⟩, ⟨61, 70⟩]

/-- The next episode comes soon after, and starts with a count of three. -/
theorem firstEpisode_remembered :
    Along (step tenTicks) (Fits tenTicks) {} (firstEpisode ++ [⟨61, 80⟩] ++ []) ∧
      (after tenTicks (firstEpisode ++ [⟨61, 80⟩])).count.toNat = 3 := by
  have fits : Along (step tenTicks) (Fits tenTicks) {} (firstEpisode ++ [⟨61, 80⟩] ++ []) := by
    decide
  have entries := (hysteresis_over_history tenTicks _ fits).2.1
  exact ⟨fits, (entries firstEpisode ⟨61, 80⟩ [] rfl (by decide)).trans (by decide)⟩
end Limen.CodelFilter
