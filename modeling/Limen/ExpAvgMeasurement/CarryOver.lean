import Limen.ExpAvgMeasurement

/-! Whether a compression of the average is still felt after the next sample. `Update` reaches
`value_` alone; while the measurement warms up, `Add` makes `value_` anew from `sum_`. -/
namespace Limen.ExpAvgMeasurement

/-- What a user does with a measurement. -/
inductive Operation where
  | add (sample : ℚ)
  | compress (factor : ℚ)
  deriving DecidableEq, Repr

namespace Operation

/-- Samples are positive, and a compression leaves some of the value and takes some away. -/
def Proper : Operation → Prop
  | .add sample => 0 < sample
  | .compress factor => 0 < factor ∧ factor < 1

def isAdd : Operation → Bool
  | .add _ => true
  | .compress _ => false
end Operation

def construct (window warmupWindow : Int) : ExpAvgMeasurement := { window, warmupWindow }

def apply (m : ExpAvgMeasurement) : Operation → ExpAvgMeasurement
  | .add sample => m.add sample
  | .compress factor => m.update (factor * ·)

def after (window warmupWindow : Int) (operations : List Operation) : ExpAvgMeasurement :=
  operations.foldl apply (construct window warmupWindow)

theorem after_concat (window warmupWindow : Int) (operations : List Operation) (o : Operation) :
    after window warmupWindow (operations ++ [o]) = (after window warmupWindow operations).apply o :=
  List.foldl_concat ..

/-- The measurement after `adds` samples: while it warms up it has counted all of them, and
from the first one on its value is positive. -/
structure Fed (window warmupWindow : Int) (adds : Nat) (m : ExpAvgMeasurement) : Prop where
  window : m.window = window
  warmup : m.warmupWindow = warmupWindow
  counted : m.count = adds ∨ (warmupWindow ≤ m.count ∧ warmupWindow ≤ adds)
  sum_nonneg : 0 ≤ m.sum
  value_nonneg : 0 ≤ m.value
  value_pos : 0 < adds → 0 < m.value

variable {window warmupWindow : Int} {adds : Nat} {m : ExpAvgMeasurement}

/-- It is warming up exactly as long as fewer samples than that were added. -/
theorem Fed.warming_iff (fed : Fed window warmupWindow adds m) :
    m.count < m.warmupWindow ↔ adds < warmupWindow := by
  rw [fed.warmup]
  rcases fed.counted with all | ⟨counted, added⟩ <;> omega

theorem Fed.add (fed : Fed window warmupWindow adds m) (wide : 1 ≤ window) {sample : ℚ}
    (positive : 0 < sample) : Fed window warmupWindow (adds + 1) (m.add sample) := by
  have sum := fed.sum_nonneg
  have value := fed.value_nonneg
  by_cases warming : m.count < m.warmupWindow
  · have early := fed.warming_iff.mp warming
    have all : m.count = adds := by
      rcases fed.counted with all | ⟨_, added⟩
      · exact all
      · omega
    have mean : 0 < (m.sum + sample) / (m.count + 1 : Nat) := by positivity
    rw [add_warmup warming]
    constructor
    · exact fed.window
    · exact fed.warmup
    · exact .inl (congrArg (· + 1) all)
    · exact add_nonneg sum positive.le
    · exact mean.le
    · intro _
      exact mean
  · have late : warmupWindow ≤ adds := by
      rw [fed.warming_iff] at warming
      omega
    have steady : m.warmupWindow ≤ m.count := Int.not_lt.mp warming
    have factor := steadyStateFactor_pos wide
    have rest : 0 ≤ 1 - steadyStateFactor window := sub_nonneg.mpr (steadyStateFactor_le_one wide)
    have folded :
        0 < m.value * (1 - steadyStateFactor window) + sample * steadyStateFactor window := by
      positivity
    rw [add_steady steady, fed.window]
    constructor
    · rfl
    · exact fed.warmup
    · refine .inr ⟨fed.warmup ▸ steady, ?_⟩
      push_cast
      omega
    · exact sum
    · exact folded.le
    · intro _
      exact folded

theorem Fed.compress (fed : Fed window warmupWindow adds m) {factor : ℚ} (positive : 0 < factor) :
    Fed window warmupWindow adds (m.update (factor * ·)) where
  window := fed.window
  warmup := fed.warmup
  counted := fed.counted
  sum_nonneg := fed.sum_nonneg
  value_nonneg := mul_nonneg positive.le fed.value_nonneg
  value_pos added := mul_pos positive (fed.value_pos added)

theorem after_fed (wide : 1 ≤ window) {operations : List Operation}
    (proper : ∀ o ∈ operations, o.Proper) :
    Fed window warmupWindow (operations.countP Operation.isAdd)
      (after window warmupWindow operations) := by
  induction operations using List.reverseRecOn with
  | nil => exact ⟨rfl, rfl, .inl rfl, le_rfl, le_rfl, fun added => absurd added (Nat.lt_irrefl 0)⟩
  | append_singleton operations o ih =>
    have before := ih fun other member => proper other (List.mem_append_left _ member)
    have last := proper o (by simp)
    rw [after_concat, List.countP_append]
    cases o with
    | add sample => exact before.add wide last
    | compress factor => exact before.compress last.1

/-- While warming up, the next value does not depend on the one before. -/
theorem add_update_warmup (warming : m.count < m.warmupWindow) (operation : ℚ → ℚ) (sample : ℚ) :
    ((m.update operation).add sample).value = (m.add sample).value := by
  have still : (m.update operation).count < (m.update operation).warmupWindow := warming
  rw [add_warmup warming, add_warmup still]
  rfl

theorem add_update_steady (steady : m.warmupWindow ≤ m.count) (factor sample : ℚ) :
    ((m.update (factor * ·)).add sample).value = (m.add sample).value -
      (1 - factor) * (m.value * (1 - steadyStateFactor m.window)) := by
  have still : (m.update (factor * ·)).warmupWindow ≤ (m.update (factor * ·)).count := steady
  rw [add_steady steady, add_steady still]
  simp only [update]
  ring

theorem steadyStateFactor_lt_one {n : Int} (wide : 2 ≤ n) : steadyStateFactor n < 1 := by
  have : (2 : ℚ) ≤ n := by exact_mod_cast wide
  rw [steadyStateFactor, div_lt_one (by positivity)]
  linarith

/-- A compression makes the value after the next sample smaller exactly if the samples before
were enough to end the warm-up. -/
theorem compression_carries_iff (window warmupWindow : Int) (wide : 2 ≤ window)
    (operations : List Operation) (proper : ∀ o ∈ operations, o.Proper)
    (added : 0 < operations.countP Operation.isAdd) (factor sample : ℚ) (shrinks : factor < 1) :
    (((after window warmupWindow operations).update (factor * ·)).add sample).value <
        ((after window warmupWindow operations).add sample).value ↔
      warmupWindow ≤ operations.countP Operation.isAdd := by
  have fed : Fed window warmupWindow _ _ := after_fed (by omega) proper
  constructor
  · intro smaller
    by_contra early
    have warming := fed.warming_iff.mpr (Int.not_le.mp early)
    rw [add_update_warmup warming] at smaller
    exact lt_irrefl _ smaller
  · intro late
    have steady := Int.not_lt.mp (mt fed.warming_iff.mp (Int.not_lt.mpr late))
    rw [add_update_steady steady, fed.window]
    have value := fed.value_pos added
    have rest : 0 < 1 - steadyStateFactor window := sub_pos.mpr (steadyStateFactor_lt_one wide)
    have taken : 0 < 1 - factor := sub_pos.mpr shrinks
    exact sub_lt_self _ (by positivity)

/-- The measurement of the test, right after its warm-up. -/
theorem halved_after_warmup :
    (((after 100 1 [.add 200]).update (1 / 2 * ·)).add 200).value <
      ((after 100 1 [.add 200]).add 200).value := by
  refine (compression_carries_iff 100 1 (by decide) [.add 200] ?_ (by decide) (1 / 2) 200
    (by norm_num)).mpr (by decide)
  intro o member
  obtain rfl := List.mem_singleton.mp member
  exact show (0 : ℚ) < 200 by norm_num

/-- The long-term RTT of a `Gradient2Limit` by default: a compression after the first sample
is gone with the second. -/
theorem halved_during_warmup :
    (∀ o ∈ [Operation.add 200], o.Proper) ∧
      ¬ (((after 600 10 [.add 200]).update (1 / 2 * ·)).add 200).value <
        ((after 600 10 [.add 200]).add 200).value := by
  constructor
  · intro o member
    obtain rfl := List.mem_singleton.mp member
    exact show (0 : ℚ) < 200 by norm_num
  · decide +kernel
end Limen.ExpAvgMeasurement
