/-
  KalavaPir.Common.Int32 — the arithmetic of `int32_t`.

  Signed overflow has no defined behaviour: a checked result is `none` there.
-/
import Mathlib.Algebra.Order.Ring.Int

namespace KalavaPir.Common

/-- The bounds of an `int32_t`. -/
def INT32_MAX : ℤ := 2 ^ 31 - 1

def INT32_MIN : ℤ := -2 ^ 31

/-- A value of type `int32_t`. -/
def IsInt32 (x : ℤ) : Prop := INT32_MIN ≤ x ∧ x ≤ INT32_MAX

instance (x : ℤ) : Decidable (IsInt32 x) := inferInstanceAs (Decidable (_ ∧ _))

/-- A signed 32-bit result; overflow is undefined. -/
def int32 (x : ℤ) : Option ℤ := if IsInt32 x then some x else none

variable {x : ℤ}

/-- A value in range is itself. -/
theorem int32_eq_some {y : ℤ} : int32 x = some y ↔ IsInt32 x ∧ y = x := by
  unfold int32
  split
  next h => simp [h, eq_comm]
  next h => simp [h]

/-- Outside the range it overflows. -/
theorem int32_eq_none : int32 x = none ↔ ¬ IsInt32 x := by
  unfold int32
  split
  next h => simp [h]
  next h => simp [h]

/-- The range, written out. -/
theorem int32_of_range (h : -2 ^ 31 ≤ x) (h' : x < 2 ^ 31) : int32 x = some x :=
  int32_eq_some.mpr ⟨⟨h, by unfold INT32_MAX; omega⟩, rfl⟩

/-- A value from 0 to the greatest one. -/
theorem int32_of_le (h : 0 ≤ x) (h' : x ≤ INT32_MAX) : int32 x = some x :=
  int32_eq_some.mpr ⟨⟨by unfold INT32_MIN; omega, h'⟩, rfl⟩

/-- One above the greatest. -/
theorem int32_of_gt (h : INT32_MAX < x) : int32 x = none :=
  int32_eq_none.mpr fun hin => absurd hin.2 (not_le.mpr h)

end KalavaPir.Common
