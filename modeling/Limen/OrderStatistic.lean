import Mathlib.Data.List.Sort
import Mathlib.Order.Bounds.Basic
import Mathlib.Order.MinMax

/-! The values of a list by rank. A value has rank `n`, counted from one, if fewer than `n` values
are below it and at least `n` are not above it; no other value of the order has that rank. The
extremes are those of a list and of a value to begin with. -/
namespace OrderStatistic
variable {α : Type*} [LinearOrder α] {values others : List α} {rank : Nat} {x y : α}

/-- `x` is the `rank`-th smallest of the values. -/
structure NthSmallest (values : List α) (rank : Nat) (x : α) : Prop where
  below : values.countP (· < x) < rank
  atMost : rank ≤ values.countP (· ≤ x)

theorem NthSmallest.le (nth : NthSmallest values rank x) (other : NthSmallest values rank y) :
    y ≤ x := by
  by_contra above
  have wider : values.countP (· ≤ x) ≤ values.countP (· < y) := by
    apply List.countP_mono_left
    intro value _ small
    have atMost : value ≤ x := of_decide_eq_true small
    exact decide_eq_true (atMost.trans_lt (not_le.mp above))
  have atMost := nth.atMost
  have below := other.below
  omega

theorem NthSmallest.unique (nth : NthSmallest values rank x) (other : NthSmallest values rank y) :
    x = y := le_antisymm (other.le nth) (nth.le other)

theorem NthSmallest.perm (nth : NthSmallest values rank x) (same : values.Perm others) :
    NthSmallest others rank x :=
  ⟨same.countP_eq _ ▸ nth.below, same.countP_eq _ ▸ nth.atMost⟩

/-- More values are not above it than below it, and so it is one of them. -/
theorem NthSmallest.mem (nth : NthSmallest values rank x) : x ∈ values := by
  by_contra absent
  have same : values.countP (· ≤ x) = values.countP (· < x) := by
    apply List.countP_congr
    intro value member
    have different : value ≠ x := fun equal => absent (equal ▸ member)
    simp [lt_iff_le_and_ne, different]
  have below := nth.below
  have atMost := nth.atMost
  omega

/-- In a sorted list the rank of a value is its position. -/
theorem nthSmallest_of_sorted {before after : List α}
    (sorted : (before ++ x :: after).Pairwise (· ≤ ·)) :
    NthSmallest (before ++ x :: after) (before.length + 1) x := by
  obtain ⟨_, tail, across⟩ := List.pairwise_append.mp sorted
  have above : ∀ value ∈ after, x ≤ value := (List.pairwise_cons.mp tail).1
  constructor
  · have none : after.countP (· < x) = 0 := by
      rw [List.countP_eq_zero]
      intro value member
      simpa using above value member
    have some := List.countP_le_length (p := (· < x)) (l := before)
    rw [List.countP_append, List.countP_cons_of_neg (by simp), none]
    omega
  · have all : before.countP (· ≤ x) = before.length := by
      rw [List.countP_eq_length]
      intro value member
      exact decide_eq_true (across value member x List.mem_cons_self)
    rw [List.countP_append, List.countP_cons_of_pos (by simp), all]
    omega

theorem nthSmallest_insertionSort {index : Nat}
    (found : (values.insertionSort (· ≤ ·))[index]? = some x) :
    NthSmallest values (index + 1) x := by
  obtain ⟨bound, here⟩ := List.getElem?_eq_some_iff.mp found
  have split : values.insertionSort (· ≤ ·) =
      (values.insertionSort (· ≤ ·)).take index ++
        x :: (values.insertionSort (· ≤ ·)).drop (index + 1) := by
    rw [← here, ← List.drop_eq_getElem_cons, List.take_append_drop]
  have sorted := List.pairwise_insertionSort (· ≤ ·) values
  have nth : NthSmallest (values.insertionSort (· ≤ ·)) (index + 1) x := by
    rw [split] at sorted ⊢
    have first := nthSmallest_of_sorted sorted
    rwa [List.length_take_of_le bound.le] at first
  exact nth.perm (List.perm_insertionSort (· ≤ ·) values)

theorem isLeast_foldl_min (x : α) (values : List α) :
    IsLeast {y | y = x ∨ y ∈ values} (values.foldl min x) := by
  induction values generalizing x with
  | nil => exact ⟨.inl rfl, fun y same => (same.resolve_right List.not_mem_nil).ge⟩
  | cons value rest ih =>
    obtain ⟨among, least⟩ := ih (min x value)
    rw [List.foldl_cons]
    constructor
    · rcases among with first | later
      · rcases min_choice x value with left | right
        · exact .inl (first.trans left)
        · exact .inr (List.mem_cons.mpr (.inl (first.trans right)))
      · exact .inr (List.mem_cons_of_mem _ later)
    · have start : rest.foldl min (min x value) ≤ min x value := least (.inl rfl)
      rintro y (rfl | member)
      · exact start.trans (min_le_left _ _)
      · rcases List.mem_cons.mp member with rfl | later
        · exact start.trans (min_le_right _ _)
        · exact least (.inr later)

theorem isGreatest_foldl_max (x : α) (values : List α) :
    IsGreatest {y | y = x ∨ y ∈ values} (values.foldl max x) :=
  isLeast_foldl_min (α := αᵒᵈ) x values
end OrderStatistic
