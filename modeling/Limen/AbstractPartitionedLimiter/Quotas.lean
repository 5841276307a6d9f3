import Limen.AbstractPartitionedLimiter.Percentages
import Mathlib.Algebra.BigOperators.Group.List.Basic
import Mathlib.Algebra.Order.BigOperators.Group.List

/-! What the quotas of a cap add up to. Each is a share of the cap rounded up, and at least one;
together they reserve the whole cap, and by rounding no more than one slot per partition
beyond it. -/
namespace Limen.AbstractPartitionedLimiter
variable {Ctx : Type} {config : Config Ctx} {globalLimit : Int} {percents : List ℚ}

/-- The quotas of percentages that are numbers. -/
def Config.quotas (config : Config Ctx) (globalLimit : Int) (percents : List ℚ) : List Int :=
  percents.map fun percent => config.computePartitionLimit globalLimit (.rat percent)

theorem computePartitionLimit_rat (config : Config Ctx) (globalLimit : Int) (percent : ℚ) :
    config.computePartitionLimit globalLimit (.rat percent) = max 1 ⌈globalLimit * percent⌉ := rfl

theorem computePartitionLimit_le {percent : ℚ} (nonneg : 0 ≤ globalLimit) (unit : 0 ≤ percent)
    (one : percent ≤ 1) :
    config.computePartitionLimit globalLimit (.rat percent) ≤ max 1 globalLimit := by
  have share := (Percent.share_between globalLimit unit one).2
  rw [max_eq_right nonneg] at share
  exact max_le_max_left 1 share

/-- A higher cap makes no quota lower, and neither does a larger percentage. -/
theorem computePartitionLimit_mono {globalLimit' : Int} {percent percent' : ℚ}
    (nonneg : 0 ≤ globalLimit) (unit : 0 ≤ percent) (caps : globalLimit ≤ globalLimit')
    (shares : percent ≤ percent') :
    config.computePartitionLimit globalLimit (.rat percent) ≤
      config.computePartitionLimit globalLimit' (.rat percent') := by
  have low : (0 : ℚ) ≤ globalLimit := by exact_mod_cast nonneg
  have capsRat : (globalLimit : ℚ) ≤ globalLimit' := by exact_mod_cast caps
  apply max_le_max_left
  apply Int.ceil_mono
  exact mul_le_mul capsRat shares unit (low.trans capsRat)

theorem share_le_computePartitionLimit (percent : ℚ) :
    (globalLimit * percent : ℚ) ≤ config.computePartitionLimit globalLimit (.rat percent) := by
  rw [computePartitionLimit_rat, Int.cast_max]
  exact (Int.le_ceil _).trans (le_max_right _ _)

/-- Rounding up adds less than one, and the floor of one slot at most one. -/
theorem computePartitionLimit_le_share {percent : ℚ} (nonneg : 0 ≤ globalLimit)
    (unit : 0 ≤ percent) :
    (config.computePartitionLimit globalLimit (.rat percent) : ℚ) ≤ globalLimit * percent + 1 := by
  have low : (0 : ℚ) ≤ globalLimit := by exact_mod_cast nonneg
  have share : 0 ≤ (globalLimit * percent : ℚ) := mul_nonneg low unit
  rw [computePartitionLimit_rat, Int.cast_max, Int.cast_one]
  apply max_le
  · linarith
  · exact (Int.ceil_lt_add_one _).le

theorem sum_quotas_between (nonneg : 0 ≤ globalLimit) (unit : ∀ percent ∈ percents, 0 ≤ percent) :
    (globalLimit * percents.sum : ℚ) ≤ (config.quotas globalLimit percents).sum ∧
      ((config.quotas globalLimit percents).sum : ℚ) ≤
        globalLimit * percents.sum + percents.length := by
  induction percents with
  | nil => simp [Config.quotas]
  | cons percent rest ih =>
    obtain ⟨low, high⟩ := ih fun other member => unit other (List.mem_cons_of_mem _ member)
    have reserved : (globalLimit * percent : ℚ) ≤
        config.computePartitionLimit globalLimit (.rat percent) := share_le_computePartitionLimit _
    have rounded : (config.computePartitionLimit globalLimit (.rat percent) : ℚ) ≤
        globalLimit * percent + 1 :=
      computePartitionLimit_le_share nonneg (unit percent List.mem_cons_self)
    have split : (config.quotas globalLimit (percent :: rest)).sum =
        config.computePartitionLimit globalLimit (.rat percent) +
          (config.quotas globalLimit rest).sum := List.sum_cons
    rw [split, List.sum_cons, List.length_cons, Int.cast_add, Nat.cast_succ]
    constructor <;> linarith

/-- The quotas of percentages that pass the checks. Below a cap of `10 ^ 9` the tolerance of the
sum check is less than a slot, and the sum is a whole number. -/
theorem quotas_reserve_cap (config : Config Ctx) (globalLimit : Int) (nonneg : 0 ≤ globalLimit)
    (small : globalLimit < 10 ^ 9) (percents : List ℚ)
    (unit : ∀ percent ∈ percents, 0 ≤ percent ∧ percent ≤ 1)
    (sum : percents.sum ≤ 1 + 1 / 10 ^ 9) :
    (∀ percent ∈ percents,
      1 ≤ config.computePartitionLimit globalLimit (.rat percent) ∧
      config.computePartitionLimit globalLimit (.rat percent) ≤ max 1 globalLimit ∧
      (∀ globalLimit', globalLimit ≤ globalLimit' →
        config.computePartitionLimit globalLimit (.rat percent) ≤
          config.computePartitionLimit globalLimit' (.rat percent)) ∧
      ∀ percent', percent ≤ percent' →
        config.computePartitionLimit globalLimit (.rat percent) ≤
          config.computePartitionLimit globalLimit (.rat percent')) ∧
    (globalLimit * percents.sum : ℚ) ≤ (config.quotas globalLimit percents).sum ∧
      (config.quotas globalLimit percents).sum ≤ globalLimit + percents.length := by
  have low : (0 : ℚ) ≤ globalLimit := by exact_mod_cast nonneg
  have high : (globalLimit : ℚ) < 10 ^ 9 := by exact_mod_cast small
  obtain ⟨reserved, rounded⟩ := @sum_quotas_between _ config globalLimit percents nonneg
    fun percent member => (unit percent member).1
  refine ⟨?_, reserved, ?_⟩
  · intro percent member
    obtain ⟨positive, one⟩ := unit percent member
    refine ⟨le_max_left _ _, computePartitionLimit_le nonneg positive one, ?_, ?_⟩
    · intro globalLimit' caps
      exact computePartitionLimit_mono nonneg positive caps le_rfl
    · intro percent' shares
      exact computePartitionLimit_mono nonneg positive le_rfl shares
  · have tolerance : (globalLimit * percents.sum : ℚ) < globalLimit + 1 := by
      calc (globalLimit * percents.sum : ℚ) ≤ globalLimit * (1 + 1 / 10 ^ 9) :=
            mul_le_mul_of_nonneg_left sum low
        _ < globalLimit + 1 := by linarith
    have below : (config.quotas globalLimit percents).sum < globalLimit + percents.length + 1 := by
      have strict : ((config.quotas globalLimit percents).sum : ℚ) <
          globalLimit + percents.length + 1 := by linarith
      exact_mod_cast strict
    omega

/-- Three thirds of ten slots are four each. -/
theorem thirds_of_ten :
    let config : Config String := .build [] [] 0 0
    config.quotas 10 [1 / 3, 1 / 3, 1 / 3] = [4, 4, 4] ∧
      (config.quotas 10 [1 / 3, 1 / 3, 1 / 3]).sum ≤ 10 + 3 := by
  intro config
  constructor
  · have third : ⌈(10 * 3⁻¹ : ℚ)⌉ = 4 := by
      rw [Int.ceil_eq_iff]
      norm_num
    simp [Config.quotas, computePartitionLimit_rat, third]
  · refine (quotas_reserve_cap config 10 (by decide) (by decide) [1 / 3, 1 / 3, 1 / 3] ?_ ?_).2.2
    · intro percent member
      have same : percent = 1 / 3 := by simpa using member
      rw [same]
      norm_num
    · norm_num
end Limen.AbstractPartitionedLimiter
