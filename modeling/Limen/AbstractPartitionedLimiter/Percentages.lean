import Limen.AbstractPartitionedLimiter.Builder

/-! What `Build` makes sure of. Its checks refuse a percentage that compares as out of range; one
that is not a number compares as nothing, and hides the sum it is part of as well. -/
namespace Limen.AbstractPartitionedLimiter
variable {Ctx : Type} {strCat : Percent → String} {b : Builder Ctx} {nanToInt cap : Int}
  {config : Config Ctx}

namespace Percent

def InUnit : Percent → Prop
  | .nan => False
  | .rat value => 0 ≤ value ∧ value ≤ 1

def AtMost (bound : ℚ) : Percent → Prop
  | .nan => False
  | .rat value => value ≤ bound

/-- `static_cast<int>` of the quota before rounding up to one has a value. -/
def Converts (globalLimit : Int) : Percent → Prop
  | .nan => False
  | .rat value => InRange 32 ⌈globalLimit * value⌉

theorem inUnit_of_checked {percent : Percent} (number : percent ≠ .nan)
    (checked : percent.outOfRange = false) : percent.InUnit := by
  cases percent with
  | nan => contradiction
  | rat value =>
    simp only [outOfRange, Bool.or_eq_false_iff, decide_eq_false_iff_not, not_lt] at checked
    exact checked

theorem atMost_of_checked {bound : ℚ} {percent : Percent} (number : percent ≠ .nan)
    (checked : percent.exceeds bound = false) : percent.AtMost bound := by
  cases percent with
  | nan => contradiction
  | rat value =>
    simp only [exceeds, decide_eq_false_iff_not, not_lt] at checked
    exact checked

theorem add_ne_nan {a b : Percent} (left : a ≠ .nan) (right : b ≠ .nan) : a.add b ≠ .nan := by
  cases a <;> cases b <;> simp_all [add]

/-- A share of the cap is between nothing and the cap. -/
theorem share_between (globalLimit : Int) {value : ℚ} (nonneg : 0 ≤ value) (one : value ≤ 1) :
    min 0 globalLimit ≤ ⌈globalLimit * value⌉ ∧ ⌈globalLimit * value⌉ ≤ max 0 globalLimit := by
  rcases le_total 0 globalLimit with positive | negative
  · have cap : (0 : ℚ) ≤ globalLimit := by exact_mod_cast positive
    rw [min_eq_left positive, max_eq_right positive]
    exact ⟨Int.ceil_nonneg (mul_nonneg cap nonneg), Int.ceil_le.mpr (mul_le_of_le_one_right cap one)⟩
  · have cap : (globalLimit : ℚ) ≤ 0 := by exact_mod_cast negative
    have less : (globalLimit : ℚ) ≤ globalLimit * value := le_mul_of_le_one_right cap one
    rw [min_eq_right negative, max_eq_left negative]
    constructor
    · exact_mod_cast less.trans (Int.le_ceil _)
    · exact Int.ceil_le.mpr (by exact_mod_cast mul_nonpos_of_nonpos_of_nonneg cap nonneg)

theorem InUnit.converts {globalLimit : Int} {percent : Percent} (unit : percent.InUnit)
    (range : InRange 32 globalLimit) : percent.Converts globalLimit := by
  cases percent with
  | nan => exact unit
  | rat value =>
    obtain ⟨low, high⟩ := range
    obtain ⟨nonneg, one⟩ := unit
    have between := share_between globalLimit nonneg one
    constructor <;> omega
end Percent

/-- A sum of numbers is a number. -/
theorem foldl_add_ne_nan {specs : List Partition} {start : Percent} (number : start ≠ .nan)
    (numbers : ∀ spec ∈ specs, spec.percent ≠ .nan) :
    specs.foldl (fun sum spec => sum.add spec.percent) start ≠ .nan := by
  induction specs generalizing start with
  | nil => exact number
  | cons spec rest ih =>
    refine ih (Percent.add_ne_nan number (numbers spec List.mem_cons_self)) ?_
    exact fun other member => numbers other (List.mem_cons_of_mem _ member)

/-- What a builder is accepted with are shares of the cap, exactly if they are numbers. -/
theorem accepted_percentages_iff (built : b.build strCat nanToInt = .ok (config, cap)) :
    ((∀ spec ∈ b.partitionSpecs, spec.percent.InUnit) ∧ b.sum.AtMost (1 + 1 / 10 ^ 9) ∧
        ∀ globalLimit, InRange 32 globalLimit → ∀ partition ∈ config.partitions,
          partition.percent.Converts globalLimit) ↔
      ∀ spec ∈ b.partitionSpecs, spec.percent ≠ .nan := by
  obtain ⟨specs, resolvers, accepted, _, rfl⟩ := Builder.build_accepted built
  constructor
  · rintro ⟨unit, _, _⟩ spec member number
    have here := unit spec member
    rw [number] at here
    exact here
  · intro numbers
    have unit (spec : Partition) (member : spec ∈ b.partitionSpecs) : spec.percent.InUnit :=
      Percent.inUnit_of_checked (numbers spec member)
        (Builder.checkSpecs_ok accepted.checked member).2.2
    refine ⟨unit, ?_, ?_⟩
    · exact Percent.atMost_of_checked (foldl_add_ne_nan (by simp) numbers) accepted.summed
    · intro globalLimit range partition member
      have same := Builder.applyDelays_percents accepted.applied
      rcases List.mem_append.mp member with declared | unknown
      · have listed : partition.percent ∈ b.partitionSpecs.map Partition.percent :=
          same ▸ List.mem_map_of_mem declared
        obtain ⟨spec, there, percent⟩ := List.mem_map.mp listed
        exact percent ▸ (unit spec there).converts range
      · obtain rfl := List.mem_singleton.mp unknown
        exact Percent.InUnit.converts ⟨le_rfl, zero_le_one⟩ range

/-- A builder with one partition of the given share, and what else `Build` asks for. -/
def goldOnly (percent : Percent) : Builder String :=
  ((({ limit := some 10 } : Builder String).partition "gold" percent).partitionResolver
    (some fun context => some context))

theorem half_accepted : ∃ config : Config String,
    (goldOnly (.rat (1 / 2))).build (fun _ => "") 0 = .ok (config, 10) ∧
    ∀ globalLimit, InRange 32 globalLimit → ∀ partition ∈ config.partitions,
      partition.percent.Converts globalLimit := by
  have built : (goldOnly (.rat (1 / 2))).build (fun _ => "") 0 =
      .ok (.build [⟨"gold", .rat (1 / 2), 0⟩] [fun context => some context] 100 0, 10) := by
    have half : ¬ (2⁻¹ : ℚ) < 0 ∧ ¬ 1 < (2⁻¹ : ℚ) := by norm_num
    have below : ¬ (1 + (10 ^ 9)⁻¹ : ℚ) < 2⁻¹ := by norm_num
    simp [goldOnly, Builder.partition, Builder.partitionResolver, updateSpec, Builder.build,
      Builder.checkSpecs, Builder.applyDelays, Builder.requireResolvers, unknownPartitionName,
      Percent.outOfRange, Percent.add, Percent.exceeds, half, below]
  refine ⟨_, built, ((accepted_percentages_iff built).mpr ?_).2.2⟩
  intro spec member
  obtain rfl := List.mem_singleton.mp member
  simp

/-- NaN passes both checks. -/
theorem nan_accepted : ∃ config, (goldOnly .nan).build (fun _ => "") 0 = .ok (config, 10) ∧
    ¬ ((∀ spec ∈ (goldOnly .nan).partitionSpecs, spec.percent.InUnit) ∧
      (goldOnly .nan).sum.AtMost (1 + 1 / 10 ^ 9)) := by
  refine ⟨_, rfl, ?_⟩
  rintro ⟨unit, _⟩
  exact unit ⟨"gold", .nan, 0⟩ (List.mem_singleton_self _)
end Limen.AbstractPartitionedLimiter
