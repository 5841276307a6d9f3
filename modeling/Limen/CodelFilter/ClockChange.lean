import Limen.CodelFilter.Episodes

/-! Verdicts are a matter of durations. Neither the origin of the clock nor its unit has a say in
them, as long as no reading is before the epoch, where the sentinel is. -/
namespace Limen.CodelFilter
open Transition
variable {p p' : Params} {unit origin : Int} {s s' : State} {enqueueTime now : Int}

/-- The same settings in another unit. -/
structure Rescaled (unit : Int) (p p' : Params) : Prop where
  positive : 0 < unit
  target : p'.target = unit * p.target
  interval : p'.interval = unit * p.interval
  spacing : ∀ count, p'.spacing count = unit * p.spacing count

def reading (unit origin time : Int) : Int := unit * time + origin

def Call.rescale (unit origin : Int) (call : Call) : Call :=
  ⟨reading unit origin call.enqueueTime, reading unit origin call.now⟩

/-- Two filters on two clocks. Before the first episode nothing has been scheduled. -/
structure Alike (unit origin : Int) (s s' : State) : Prop where
  unset : s.firstAboveTime = 0 → s'.firstAboveTime = 0
  set : s.firstAboveTime ≠ 0 → s'.firstAboveTime = reading unit origin s.firstAboveTime ∧
    s'.firstAboveTime ≠ 0
  scheduled : (s.dropping = false ∧ s.count = 0 ∧ s.lastcount = 0) ∨
    s'.dropNext = reading unit origin s.dropNext
  count : s'.count = s.count
  lastcount : s'.lastcount = s.lastcount
  dropping : s'.dropping = s.dropping
  dropCount : s'.dropCount = s.dropCount

theorem reading_le (positive : 0 < unit) {a b : Int} :
    reading unit origin a ≤ reading unit origin b ↔ a ≤ b := by
  rw [reading, reading, Int.add_le_add_iff_right]
  exact Int.mul_le_mul_left positive

theorem reading_add (unit origin a b : Int) :
    reading unit origin (a + b) = reading unit origin a + unit * b := by
  rw [reading, reading, Int.mul_add]
  omega

theorem reading_sub (unit origin a b : Int) :
    reading unit origin a - reading unit origin b = unit * (a - b) := by
  rw [reading, reading, Int.mul_sub]
  omega

theorem sojourn_reading (positive : 0 < unit) (enqueueTime now : Int) :
    sojourn (reading unit origin enqueueTime) (reading unit origin now) =
      unit * sojourn enqueueTime now := by
  rw [sojourn, sojourn, reading_sub]
  rcases Int.le_total 0 (now - enqueueTime) with waited | future
  · rw [max_eq_right waited, max_eq_right (Int.mul_nonneg positive.le waited)]
  · rw [max_eq_left future, max_eq_left (Int.mul_nonpos_of_nonneg_of_nonpos positive.le future),
      Int.mul_zero]

theorem okToDrop_alike (rescaled : Rescaled unit p p') (alike : Alike unit origin s s')
    (epoch : 0 ≤ now) (epoch' : 0 ≤ reading unit origin now) (wait : Int) :
    (okToDrop p' s' (unit * wait) (reading unit origin now)).2 = (okToDrop p s wait now).2 ∧
      Alike unit origin (okToDrop p s wait now).1
        (okToDrop p' s' (unit * wait) (reading unit origin now)).1 := by
  have positive := rescaled.positive
  have kept := alike.scheduled
  rcases Int.lt_or_le wait p.target with below | above
  · have below' : unit * wait < p'.target := by
      rw [rescaled.target]
      exact Int.mul_lt_mul_of_pos_left below positive
    rw [okToDrop_below below, okToDrop_below below']
    exact ⟨rfl, { alike with unset := fun _ => rfl, set := fun set => absurd rfl set }⟩
  · have above' : p'.target ≤ unit * wait := by
      rw [rescaled.target]
      exact Int.mul_le_mul_of_nonneg_left above positive.le
    by_cases unset : s.firstAboveTime = 0
    · rw [okToDrop_first above unset, okToDrop_first above' (alike.unset unset)]
      have later : reading unit origin now + p'.interval =
          reading unit origin (now + p.interval) := by
        rw [reading_add, rescaled.interval]
      have length := p.interval_pos
      have length' := p'.interval_pos
      refine ⟨rfl, { alike with unset := fun unset => ?_, set := fun _ => ⟨later, ?_⟩ }⟩
      · have zero : now + p.interval = 0 := unset
        omega
      · have passed : 0 < reading unit origin now + p'.interval := by omega
        exact passed.ne'
    · obtain ⟨same, set⟩ := alike.set unset
      rw [okToDrop_later above unset, okToDrop_later above' set]
      refine ⟨?_, alike⟩
      rw [same]
      exact decide_eq_decide.mpr (reading_le positive)

theorem entryCount_alike (rescaled : Rescaled unit p p') (alike : Alike unit origin s s')
    (now : Int) : entryCount p' s' (reading unit origin now) = entryCount p s now := by
  rw [entryCount, entryCount, alike.count, alike.lastcount]
  rcases alike.scheduled with ⟨_, none, none'⟩ | scheduled
  · rw [none, none']
    simp
  · have recent : reading unit origin now - s'.dropNext < 16 * p'.interval ↔
        now - s.dropNext < 16 * p.interval := by
      rw [scheduled, reading_sub, rescaled.interval, Int.mul_left_comm]
      exact Int.mul_lt_mul_left rescaled.positive
    simp only [recent]

/-- One call, by its answer and the state it finds. -/
theorem shouldDrop_eq (p : Params) (s : State) (enqueueTime now : Int) :
    shouldDrop p s enqueueTime now =
      if (okToDrop p s (sojourn enqueueTime now) now).2 = false then
        ({ (okToDrop p s (sojourn enqueueTime now) now).1 with dropping := false }, false)
      else if s.dropping = false then (enter p s now, true)
      else if s.dropNext ≤ now then (advance p s, true)
      else (s, false) := by
  have kept := okToDrop_keeps p s (sojourn enqueueTime now) now
  rcases shouldDrop_cases p s enqueueTime now with
    ⟨no, done⟩ | ⟨yes, dropping, due, done⟩ | ⟨yes, dropping, early, done⟩ | ⟨yes, outside, done⟩
  · rw [done, if_pos no, kept]
  · rw [done, yes, if_neg Bool.true_eq_false.mp, if_neg (by rw [dropping]; decide), if_pos due]
  · rw [done, yes, if_neg Bool.true_eq_false.mp, if_neg (by rw [dropping]; decide),
      if_neg (Int.not_le.mpr early)]
  · rw [done, yes, if_neg Bool.true_eq_false.mp, if_pos outside]

theorem shouldDrop_alike (rescaled : Rescaled unit p p') (alike : Alike unit origin s s')
    (epoch : 0 ≤ now) (epoch' : 0 ≤ reading unit origin now) (enqueueTime : Int) :
    (shouldDrop p' s' (reading unit origin enqueueTime) (reading unit origin now)).2 =
        (shouldDrop p s enqueueTime now).2 ∧
      Alike unit origin (shouldDrop p s enqueueTime now).1
        (shouldDrop p' s' (reading unit origin enqueueTime) (reading unit origin now)).1 := by
  obtain ⟨same, kept⟩ := okToDrop_alike rescaled alike epoch epoch' (sojourn enqueueTime now)
  have entry := entryCount_alike rescaled alike now
  rw [shouldDrop_eq, shouldDrop_eq, sojourn_reading rescaled.positive, same, alike.dropping]
  split
  · refine ⟨rfl, { kept with scheduled := ?_, dropping := rfl }⟩
    exact kept.scheduled.imp_left fun unscheduled => ⟨rfl, unscheduled.2⟩
  · have scheduledAt (time : Int) (count : UInt32) :
        controlLaw p' (reading unit origin time) count =
          reading unit origin (controlLaw p time count) := by
      rw [controlLaw, controlLaw, reading_add, rescaled.spacing]
    split
    · refine ⟨rfl, { alike with
        scheduled := .inr ?_, count := entry, lastcount := entry, dropping := rfl,
        dropCount := congrArg (· + 1) alike.dropCount }⟩
      exact (congrArg (controlLaw p' _) entry).trans (scheduledAt now _)
    · rename_i inside
      have scheduled := alike.scheduled.resolve_left fun unscheduled =>
        inside unscheduled.1
      have due : s'.dropNext ≤ reading unit origin now ↔ s.dropNext ≤ now := by
        rw [scheduled]
        exact reading_le rescaled.positive
      simp only [due]
      split
      · refine ⟨rfl, { alike with
          scheduled := .inr ?_, count := congrArg (· + 1) alike.count,
          dropCount := congrArg (· + 1) alike.dropCount }⟩
        simp only [advance, scheduled, alike.count, scheduledAt]
      · exact ⟨rfl, alike⟩

theorem after_alike (rescaled : Rescaled unit p p') (calls : List Call)
    (epoch : ∀ call ∈ calls, 0 ≤ call.now ∧ 0 ≤ reading unit origin call.now) :
    verdicts p' {} (calls.map (Call.rescale unit origin)) = verdicts p {} calls ∧
      Alike unit origin (after p calls) (after p' (calls.map (Call.rescale unit origin))) := by
  induction calls using List.reverseRecOn with
  | nil =>
    exact ⟨rfl, fun _ => rfl, fun set => absurd rfl set, .inl ⟨rfl, rfl, rfl⟩, rfl, rfl, rfl, rfl⟩
  | append_singleton calls call ih =>
    obtain ⟨before, alike⟩ := ih fun other member => epoch other (List.mem_append_left _ member)
    obtain ⟨here, here'⟩ := epoch call (by simp)
    obtain ⟨same, next⟩ := shouldDrop_alike rescaled alike here here' call.enqueueTime
    rw [List.map_append, List.map_singleton, after_concat, after_concat, verdicts_concat,
      verdicts_concat, before]
    exact ⟨congrArg (verdicts p {} calls ++ [·]) same, next⟩

/-- An episode leaves the count it was entered with. -/
theorem lastcount_ne_zero (p : Params) (calls : List Call)
    (dropped : true ∈ verdicts p {} calls ∨ (after p calls).dropping = true) :
    (after p calls).lastcount ≠ 0 := by
  induction calls using List.reverseRecOn with
  | nil => rcases dropped with earlier | inside <;> contradiction
  | append_singleton calls call ih =>
    rw [verdicts_concat, List.mem_append, List.mem_singleton, verdict, after_concat] at dropped
    rw [after_concat]
    rcases shouldDrop_cases p (after p calls) call.enqueueTime call.now with
      ⟨_, done⟩ | ⟨_, dropping, _, done⟩ | ⟨_, dropping, _, done⟩ | ⟨_, _, done⟩ <;>
      rw [done] at dropped ⊢
    · rcases dropped with (earlier | now) | inside
      · exact ih (.inl earlier)
      · contradiction
      · contradiction
    · exact ih (.inr dropping)
    · exact ih (.inr dropping)
    · have entered := entryCount_pos p (after p calls) call.now
      intro unset
      have unset : entryCount p (after p calls) call.now = 0 := unset
      rw [unset] at entered
      exact absurd entered (by decide)

/-- Whatever the unit and the origin of the clock: as long as it reads a time after the epoch, the
same items are dropped, the filter is in drop state after the same calls, and the next drop is
scheduled for the same moment. -/
theorem clock_change (rescaled : Rescaled unit p p') (calls : List Call)
    (epoch : ∀ call ∈ calls, 0 ≤ call.now ∧ 0 ≤ reading unit origin call.now) :
    verdicts p' {} (calls.map (Call.rescale unit origin)) = verdicts p {} calls ∧
      (after p' (calls.map (Call.rescale unit origin))).dropping = (after p calls).dropping ∧
      (after p' (calls.map (Call.rescale unit origin))).dropCount = (after p calls).dropCount ∧
      (true ∈ verdicts p {} calls →
        (after p' (calls.map (Call.rescale unit origin))).dropNext =
          reading unit origin (after p calls).dropNext) := by
  obtain ⟨same, alike⟩ := after_alike rescaled calls epoch
  refine ⟨same, alike.dropping, alike.dropCount, fun dropped => ?_⟩
  refine alike.scheduled.resolve_left fun ⟨_, _, unset⟩ => ?_
  exact lastcount_ne_zero p calls (.inl dropped) unset

/-- `tenTicks` with its ticks halved. -/
def twentyHalfTicks : Params where
  target := 2
  interval := 20
  spacing count := 2 * tickSpacing 10 count
  target_pos := by decide
  interval_pos := by decide

theorem twentyHalfTicks_rescaled : Rescaled 2 tenTicks twentyHalfTicks :=
  ⟨by decide, rfl, rfl, fun _ => rfl⟩

/-- The episode of three further drops on a clock in half ticks that reads 7 at the epoch. -/
theorem firstEpisode_clocked :
    verdicts twentyHalfTicks {} (firstEpisode.map (Call.rescale 2 7)) =
        [false, true, true, true, true, false, false] ∧
      (after twentyHalfTicks (firstEpisode.map (Call.rescale 2 7))).dropNext =
        reading 2 7 (after tenTicks firstEpisode).dropNext := by
  have epoch : ∀ call ∈ firstEpisode, 0 ≤ call.now ∧ 0 ≤ reading 2 7 call.now := by decide
  have told : verdicts tenTicks {} firstEpisode =
      [false, true, true, true, true, false, false] := by decide
  obtain ⟨same, _, _, scheduled⟩ := clock_change twentyHalfTicks_rescaled firstEpisode epoch
  exact ⟨same.trans told, scheduled (by rw [told]; decide)⟩
end Limen.CodelFilter
