import Limen.SampleWindow.Percentile
import Limen.Transition

/-! The indices of the percentile window. The counter is compared with the bound of the array but
not with zero, below which it wraps; and an array of no entries leaves nothing to read. -/
namespace Limen.PercentileSampleWindow
open Transition
variable {percentile : ℚ} {maxSamples : Nat} {samples : List Sample} {w : PercentileSampleWindow}

/-- The call stores into `rtts_` and reads from `sort_buffer_` inside their bounds. -/
def InBounds (maxSamples : Nat) (w : PercentileSampleWindow) : Call → Prop
  | .addSample _ => ∀ index, w.storeIndex = some index → 0 ≤ index ∧ index < maxSamples
  | .trackedRttNs => w.sampleCount ≠ 0 → 0 ≤ w.readIndex ∧ w.readIndex < w.sortBuffer.length
  | .reset => True

/-- The number of samples since the last `Reset` has not reached the end of the counter, and a
window with samples has room for some. -/
def Countable (maxSamples added : Nat) : Call → Prop
  | .addSample _ => added < 2 ^ 31
  | .trackedRttNs => added = 0 ∨ (added < 2 ^ 31 ∧ 1 ≤ maxSamples)
  | .reset => True

theorem wrap_count {n : Nat} (small : n < 2 ^ 31) : wrap 32 (n : Int) = n := by
  apply wrap_eq (by decide)
  constructor <;> omega

/-- The sample after `2 ^ 31 - 1` others makes the counter negative. -/
theorem wrap_full : wrap 32 ((2 ^ 31 : Nat) : Int) = -2 ^ 31 := by decide

theorem Kept.length_sortBuffer (kept : Kept percentile maxSamples samples w) :
    w.sortBuffer.length = (min w.sampleCount maxSamples).toNat := by
  rw [sortBuffer, List.length_insertionSort, List.length_take, kept.size, kept.maxSamples_eq]
  omega

theorem storeIndex_inBounds_iff (kept : Kept percentile maxSamples samples w)
    (small : samples.length ≤ 2 ^ 31) (s : Sample) :
    InBounds maxSamples w (.addSample s) ↔ Countable maxSamples samples.length (.addSample s) := by
  have stored : w.storeIndex =
      if wrap 32 samples.length < maxSamples then some (wrap 32 samples.length) else none := by
    rw [storeIndex, kept.count, kept.maxSamples_eq]
  rw [InBounds, Countable, stored]
  rcases Nat.lt_or_eq_of_le small with below | full
  · rw [wrap_count below]
    refine iff_of_true ?_ below
    intro index claimed
    split at claimed <;> cases claimed
    exact ⟨Int.natCast_nonneg _, by assumption⟩
  · rw [full, wrap_full]
    refine iff_of_false ?_ (Nat.lt_irrefl _)
    intro bounded
    have negative : (-2 ^ 31 : Int) < maxSamples := by omega
    rw [if_pos negative] at bounded
    have nonneg := (bounded _ rfl).1
    omega

theorem readIndex_inBounds_iff (kept : Kept percentile maxSamples samples w)
    (small : samples.length ≤ 2 ^ 31) :
    InBounds maxSamples w .trackedRttNs ↔ Countable maxSamples samples.length .trackedRttNs := by
  rw [InBounds, Countable]
  have within : 0 ≤ w.readIndex ∧ w.readIndex < w.sortBuffer.length ↔ 0 < w.sortBuffer.length := by
    simp only [readIndex]
    omega
  rw [within, kept.length_sortBuffer, kept.count]
  rcases Nat.lt_or_eq_of_le small with below | full
  · rw [wrap_count below]
    omega
  · rw [full, wrap_full]
    omega

theorem inBounds_iff (kept : Kept percentile maxSamples samples w)
    (small : samples.length ≤ 2 ^ 31) (call : Call) :
    InBounds maxSamples w call ↔ Countable maxSamples samples.length call := by
  cases call with
  | addSample s => exact storeIndex_inBounds_iff kept small s
  | trackedRttNs => exact readIndex_inBounds_iff kept small
  | reset => exact Iff.rfl

/-- Calls as steps; the state is the history. -/
def record (before : List Call) (call : Call) : Option (List Call) := some (before ++ [call])

theorem run_record (before calls : List Call) : run record before calls = some (before ++ calls) := by
  induction calls generalizing before with
  | nil => rw [run, List.append_nil]
  | cons call rest ih =>
    rw [run_cons, record, Option.bind_some, ih, List.append_assoc]
    rfl

theorem along_record_iff {admits : List Call → Call → Prop} {calls : List Call} :
    Along record admits [] calls ↔
      ∀ before call later, calls = before ++ call :: later → admits before call := by
  rw [along_iff]
  constructor
  · intro admitted before call later split
    exact admitted before call later before split (run_record [] before)
  · rintro admitted before call later _ split ran
    obtain rfl : before = _ := Option.some.inj ((run_record [] before).symm.trans ran)
    exact admitted before call later split

/-- In every run, all accesses are in bounds exactly if no call finds the counter past its end, and
no `TrackedRttNs` finds samples in a window without an array. -/
theorem accesses_in_bounds_iff (percentile : ℚ) (maxSamples : Nat) (calls : List Call) :
    (∀ before call later, calls = before ++ call :: later →
        InBounds maxSamples (after percentile maxSamples before) call) ↔
      ∀ before call later, calls = before ++ call :: later →
        Countable maxSamples (sinceReset before).length call := by
  rw [← along_record_iff, ← along_record_iff]
  refine along_congr (P := fun before => (sinceReset before).length ≤ 2 ^ 31) ?_ ?_
    (Nat.zero_le _) calls
  · intro before call small
    exact inBounds_iff (after_kept percentile maxSamples before) small call
  · intro before call _ small countable stepped
    cases stepped
    rw [sinceReset_concat]
    cases call with
    | addSample s =>
      rw [Call.enter, List.length_append, List.length_singleton]
      exact countable
    | trackedRttNs => exact small
    | reset => exact Nat.zero_le _

theorem sinceReset_replicate (n : Nat) (s : Sample) :
    sinceReset (List.replicate n (.addSample s)) = List.replicate n s := by
  induction n with
  | zero => rfl
  | succ n ih => rw [List.replicate_succ', sinceReset_concat, ih, Call.enter, List.replicate_succ']

/-- A window with a sample and no array, and one of sixteen entries that has got `2 ^ 31` samples
and gets another. -/
theorem out_of_bounds :
    ¬ InBounds 0 (after (1 / 2) 0 [.addSample ⟨0, 5, 1, false⟩]) .trackedRttNs ∧
      ¬ InBounds 16 (after (1 / 2) 16 (List.replicate (2 ^ 31) (.addSample ⟨0, 5, 1, false⟩)))
        (.addSample ⟨0, 5, 1, false⟩) := by
  constructor
  · rw [inBounds_iff (after_kept _ _ _) (by decide)]
    rintro (none | ⟨_, room⟩) <;> contradiction
  · have added (n : Nat) :
        (sinceReset (List.replicate n (.addSample ⟨0, 5, 1, false⟩))).length = n := by
      rw [sinceReset_replicate, List.length_replicate]
    rw [inBounds_iff (after_kept _ _ _) (added _).le, added]
    exact Nat.lt_irrefl _
end Limen.PercentileSampleWindow
