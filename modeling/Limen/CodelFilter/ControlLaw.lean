import Limen.CodelFilter.Episodes
import Mathlib.Order.WithBot

/-! What `ControlLaw` is called with. A drop too many in one episode brings the 32-bit counter
round to zero, and the next drop is put off forever. -/
namespace Limen.CodelFilter
open Transition
variable {p : Params} {s t : State} {call : Call} {calls : List Call}

/-- The time and the count that the call passes to `ControlLaw`, if it calls it. -/
def controlLawCall (p : Params) (s : State) (call : Call) : Option (Int × UInt32) :=
  match effect p s call with
  | .kept => none
  | .scheduled => some (s.dropNext, s.count + 1)
  | .entered => some (call.now, entryCount p s call.now)

theorem shouldDrop_dropNext (p : Params) (s : State) (call : Call) :
    (shouldDrop p s call.enqueueTime call.now).1.dropNext =
      match controlLawCall p s call with
      | none => s.dropNext
      | some (time, count) => controlLaw p time count := by
  rw [controlLawCall]
  rcases effect_cases p s call with
    ⟨effect, _, _, done, _⟩ | ⟨effect, _, _, done⟩ | ⟨effect, _, done⟩ <;> rw [effect, done] <;> rfl

/-- What `ControlLaw` returns in the whole range of `absl::Time`: dividing the interval by zero
gives the infinite duration. -/
def controlLawResult (p : Params) (time : Int) (count : UInt32) : WithTop Int :=
  if count = 0 then ⊤ else controlLaw p time count

/-- The call does not take `ControlLaw` to zero, and the counters it subtracts are in order. -/
structure Sound (p : Params) (s : State) (call : Call) : Prop where
  positive : ∀ time count, controlLawCall p s call = some (time, count) → 1 ≤ count
  finite : ∀ time count, controlLawCall p s call = some (time, count) →
    controlLawResult p time count ≠ ⊤
  ordered : effect p s call = .entered → s.lastcount ≤ s.count

theorem one_le_iff {count : UInt32} : 1 ≤ count ↔ count ≠ 0 := by
  rw [UInt32.le_iff_toNat_le, Ne, ← UInt32.toNat_inj]
  change 1 ≤ count.toNat ↔ ¬ count.toNat = 0
  omega

theorem controlLawResult_ne_top {time : Int} {count : UInt32} (nonzero : count ≠ 0) :
    controlLawResult p time count ≠ ⊤ := by
  rw [controlLawResult, if_neg nonzero]
  exact WithTop.coe_ne_top

/-- The next count is a positive one exactly if there is room for it. -/
theorem succ_ne_zero_iff (count : UInt32) : count + 1 ≠ 0 ↔ count.toNat + 1 < 2 ^ 32 := by
  have bound := count.toNat_lt
  rw [Ne, ← UInt32.toNat_inj, UInt32.toNat_add]
  change ¬ (count.toNat + 1) % 2 ^ 32 = 0 ↔ _
  omega

theorem sound_iff_fits (ordered : s.lastcount ≤ s.count) (call : Call) :
    Sound p s call ↔ Fits p s call := by
  rw [fits_iff]
  rcases effect_cases p s call with ⟨kept, _⟩ | ⟨scheduled, _⟩ | ⟨entered, _⟩
  · have none : controlLawCall p s call = none := by rw [controlLawCall, kept]
    constructor
    · intro _ scheduled
      rw [kept] at scheduled
      contradiction
    · intro _
      constructor <;> simp [none, kept]
  · have called : controlLawCall p s call = some (s.dropNext, s.count + 1) := by
      rw [controlLawCall, scheduled]
    constructor
    · intro sound _
      exact (succ_ne_zero_iff _).mp (one_le_iff.mp (sound.positive _ _ called))
    · intro fits
      have nonzero := (succ_ne_zero_iff _).mpr (fits scheduled)
      constructor
      · intro time count same
        cases called.symm.trans same
        exact one_le_iff.mpr nonzero
      · intro time count same
        cases called.symm.trans same
        exact controlLawResult_ne_top nonzero
      · intro _
        exact ordered
  · have called : controlLawCall p s call = some (call.now, entryCount p s call.now) := by
      rw [controlLawCall, entered]
    have positive := entryCount_pos p s call.now
    constructor
    · intro _ scheduled
      rw [entered] at scheduled
      contradiction
    · intro _
      constructor
      · intro time count same
        cases called.symm.trans same
        exact positive
      · intro time count same
        cases called.symm.trans same
        exact controlLawResult_ne_top (one_le_iff.mp positive)
      · intro _
        exact ordered

theorem ordered_step (ordered : s.lastcount ≤ s.count) (fits : Fits p s call)
    (stepped : step p s call = some t) : t.lastcount ≤ t.count := by
  cases stepped
  rcases effect_cases p s call with
    ⟨_, _, _, done, _⟩ | ⟨scheduled, _, _, done⟩ | ⟨_, _, done⟩ <;> rw [done]
  · exact ordered
  · rw [UInt32.le_iff_toNat_le] at ordered ⊢
    change s.lastcount.toNat ≤ (s.count + 1).toNat
    rw [toNat_succ (fits_iff.mp fits scheduled)]
    omega
  · exact UInt32.le_refl _

/-- Along every run, `ControlLaw` is never called with zero, never gives an infinite time, and
the subtraction of the counters never underflows, exactly if no drop comes due with the
counter at its greatest value. -/
theorem control_law_sound_iff (p : Params) (calls : List Call) :
    Along (step p) (Sound p) {} calls ↔ Along (step p) (Fits p) {} calls :=
  along_congr (P := fun s => s.lastcount ≤ s.count) (fun ordered => sound_iff_fits ordered _)
    ordered_step (UInt32.le_refl _) calls

/-! ### An overload that lasts -/

/-- Items that have waited since the epoch, one every ten ticks from the second on. -/
def overload (n : Nat) : List Call :=
  [⟨0, 5⟩, ⟨0, 15⟩] ++ (List.range n).map fun i => ⟨0, 25 + 10 * i⟩

theorem overload_succ (n : Nat) : overload (n + 1) = overload n ++ [⟨0, 25 + 10 * n⟩] := by
  rw [overload, overload, List.range_succ, List.map_append, List.append_assoc]
  rfl

theorem tickSpacing_le (count : UInt32) : tickSpacing 10 count ≤ 10 := by
  have bound := Nat.findGreatest_le (P := fun ticks => ticks ^ 2 * count.toNat ≤ 10 ^ 2) 10
  rw [tickSpacing]
  omega

/-- Every one of them is dropped on schedule. -/
structure Overloaded (n : Nat) (s : State) : Prop where
  armed : s.firstAboveTime = 15
  dropping : s.dropping = true
  count : s.count = UInt32.ofNat (n + 1)
  due : s.dropNext ≤ 25 + 10 * n

theorem Overloaded.shouldDrop {n : Nat} (overloaded : Overloaded n s) :
    CodelFilter.shouldDrop tenTicks s 0 (25 + 10 * n) = (advance tenTicks s, true) := by
  have armed := overloaded.armed
  have wait : sojourn 0 (25 + 10 * n) = 25 + 10 * n := by
    rw [sojourn]
    omega
  have ok : (okToDrop tenTicks s (sojourn 0 (25 + 10 * n)) (25 + 10 * n)).2 = true := by
    rw [wait, okToDrop_later (show (1 : Int) ≤ 25 + 10 * n by omega) (by omega)]
    exact decide_eq_true (by omega)
  rcases shouldDrop_cases tenTicks s 0 (25 + 10 * n) with
    ⟨notOk, _⟩ | ⟨_, _, _, done⟩ | ⟨_, _, early, _⟩ | ⟨_, outside, _⟩
  · rw [ok] at notOk
    contradiction
  · exact done
  · exact absurd overloaded.due (Int.not_le.mpr early)
  · rw [overloaded.dropping] at outside
    contradiction

theorem after_overload (n : Nat) : Overloaded n (after tenTicks (overload n)) := by
  induction n with
  | zero => exact ⟨by decide, by decide, by decide, by decide⟩
  | succ n ih =>
    rw [overload_succ, after_concat, ih.shouldDrop]
    constructor
    · exact ih.armed
    · exact ih.dropping
    · change (after tenTicks (overload n)).count + 1 = _
      rw [ih.count, ← UInt32.ofNat_one, ← UInt32.ofNat_add]
    · change (after tenTicks (overload n)).dropNext + tickSpacing 10 _ ≤ _
      have step := tickSpacing_le ((after tenTicks (overload n)).count + 1)
      have due := ih.due
      push_cast
      omega

/-- The drop that brings the counter round to zero. -/
theorem overload_unsound {n : Nat} (round : UInt32.ofNat (n + 1) + 1 = 0) :
    ¬ Along (step tenTicks) (Sound tenTicks) {} (overload (n + 1)) := by
  intro along
  have overloaded := after_overload n
  rw [overload_succ] at along
  have sound : Sound tenTicks (after tenTicks (overload n)) ⟨0, 25 + 10 * n⟩ :=
    (along.right (run_after tenTicks [] (overload n))).1
  have scheduled : effect tenTicks (after tenTicks (overload n)) ⟨0, 25 + 10 * n⟩ = .scheduled := by
    simp [effect, overloaded.shouldDrop, overloaded.dropping]
  have positive := sound.positive _ _ (by rw [controlLawCall, scheduled])
  rw [overloaded.count, round] at positive
  contradiction

/-- Ten ticks to the interval: the drop number `2 ^ 32` of one episode. -/
theorem long_overload_unsound :
    ¬ Along (step tenTicks) (Sound tenTicks) {} (overload (2 ^ 32 - 1)) := by
  have last : 2 ^ 32 - 1 = 2 ^ 32 - 2 + 1 := by decide
  rw [last]
  exact overload_unsound (by decide)
end Limen.CodelFilter
