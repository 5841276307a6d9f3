import Mathlib.Algebra.Group.Int.Defs
import Mathlib.Algebra.Group.Nat.Defs
import Mathlib.Data.Int.Order.Basic

/-! The interface between limiters and limit algorithms, and the machine arithmetic that
its implementations use. -/
namespace Limen

/-- The arguments of `Limit::OnSample`. -/
structure Sample where
  startTimeNs : Int
  rttNs : Int
  inflight : Int
  didDrop : Bool
  deriving DecidableEq, Repr

/-- The value a signed machine integer of `bits` bits keeps of a result. -/
def wrap (bits : Nat) (value : Int) : Int := value.bmod (2 ^ bits)

/-- The result is a value of the type: nothing overflows. -/
def InRange (bits : Nat) (value : Int) : Prop := -2 ^ (bits - 1) ≤ value ∧ value < 2 ^ (bits - 1)

instance (bits : Nat) (value : Int) : Decidable (InRange bits value) :=
  inferInstanceAs (Decidable (_ ∧ _))

/-- `std::numeric_limits<int64_t>::max()`. -/
def int64Max : Int := 2 ^ 63 - 1

theorem wrap_eq {bits : Nat} {value : Int} (positive : 0 < bits) (range : InRange bits value) :
    wrap bits value = value := by
  obtain ⟨low, high⟩ := range
  have double : (2 : Nat) ^ bits = 2 * 2 ^ (bits - 1) := by
    rw [← Nat.pow_succ', Nat.succ_eq_add_one, Nat.sub_add_cancel positive]
  rw [wrap, double]
  apply Int.bmod_eq_of_le <;> push_cast <;> omega

theorem wrap_zero (bits : Nat) : wrap bits 0 = 0 := Int.zero_bmod ..

theorem wrap_wrap_add (bits : Nat) (a b : Int) : wrap bits (wrap bits a + b) = wrap bits (a + b) :=
  Int.bmod_add_bmod

theorem wrap_right_comm (bits : Nat) (total a b : Int) :
    wrap bits (wrap bits (total + a) + b) = wrap bits (wrap bits (total + b) + a) := by
  rw [wrap_wrap_add, wrap_wrap_add, Int.add_right_comm]

end Limen
