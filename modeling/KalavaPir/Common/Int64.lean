/-
  KalavaPir.Common.Int64 — the arithmetic of `int64_t`.

  As for `int32_t`, a checked result is `none` where signed overflow has no defined
  behaviour.
-/
import Mathlib.Algebra.Order.Ring.Int

namespace KalavaPir.Common

/-- The bounds of an `int64_t`. -/
def INT64_MAX : ℤ := 2 ^ 63 - 1

def INT64_MIN : ℤ := -2 ^ 63

/-- A value of type `int64_t`. -/
def IsInt64 (x : ℤ) : Prop := INT64_MIN ≤ x ∧ x ≤ INT64_MAX

instance (x : ℤ) : Decidable (IsInt64 x) := inferInstanceAs (Decidable (_ ∧ _))

/-- A signed 64-bit result; overflow is undefined. -/
def int64 (x : ℤ) : Option ℤ := if IsInt64 x then some x else none

variable {x : ℤ}

/-- A value in range is itself. -/
theorem int64_of_isInt64 (h : IsInt64 x) : int64 x = some x := if_pos h

/-- Outside the range it overflows. -/
theorem int64_of_not (h : ¬ IsInt64 x) : int64 x = none := if_neg h

/-- What did not overflow is in range. -/
theorem int64_eq_some {y : ℤ} (h : int64 x = some y) : IsInt64 x ∧ y = x := by
  unfold int64 at h
  split at h
  next hx => exact ⟨hx, (Option.some.inj h).symm⟩
  next => cases h

/-- The range, written out. -/
theorem isInt64_iff : IsInt64 x ↔ -2 ^ 63 ≤ x ∧ x < 2 ^ 63 := by
  unfold IsInt64 INT64_MIN INT64_MAX
  omega

end KalavaPir.Common
