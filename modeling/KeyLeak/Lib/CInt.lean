import Mathlib.Algebra.Group.Int.Defs
import Mathlib.Algebra.Group.Nat.Defs

/-!
# Arithmetic of a 32-bit C `int`

`Int32` wraps. An operation of C is exact when its mathematical result fits, and
undefined otherwise; `Fits` is that side condition, and the lemmas below read the
wrapped result as the mathematical one under it.
-/
namespace CInt

def INT_MIN : Int := -2147483648
def INT_MAX : Int := 2147483647

/-- The mathematical value is representable as an `int`. -/
def Fits (x : Int) : Prop := INT_MIN ≤ x ∧ x ≤ INT_MAX

instance (x : Int) : Decidable (Fits x) := inferInstanceAs (Decidable (_ ∧ _))

theorem fits_iff (x : Int) : Fits x ↔ -2147483648 ≤ x ∧ x ≤ 2147483647 := Iff.rfl

/-- The wrapped value is the mathematical one when that one fits. -/
theorem bmod_of_fits {x : Int} (h : Fits x) : x.bmod (2 ^ 32) = x := by
  rw [fits_iff] at h
  exact Int.bmod_eq_of_le (by omega) (by omega)

theorem toInt_add {a b : Int32} (h : Fits (a.toInt + b.toInt)) :
    (a + b).toInt = a.toInt + b.toInt := by
  rw [Int32.toInt_add, bmod_of_fits h]

theorem toInt_sub {a b : Int32} (h : Fits (a.toInt - b.toInt)) :
    (a - b).toInt = a.toInt - b.toInt := by
  rw [Int32.toInt_sub, bmod_of_fits h]

/-- Division of nonnegative operands truncates exactly as on the integers. -/
theorem toInt_div {a b : Int32} (ha : 0 ≤ a.toInt) (hb : 0 ≤ b.toInt) :
    (a / b).toInt = a.toInt / b.toInt := by
  have hne : b ≠ -1 := by
    rintro rfl
    exact absurd hb (by decide)
  rw [Int32.toInt_div_of_ne_right a b hne, Int.tdiv_eq_ediv_of_nonneg ha]

end CInt
