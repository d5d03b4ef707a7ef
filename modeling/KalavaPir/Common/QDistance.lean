/-
  KalavaPir.Common.QDistance — the edit distance of `common/qdistance.h`.

  A string comes with its length, an `int32_t`, and is a list of bytes; a pointer
  moved on by one and a length less by one are its tail.
-/
import KalavaPir.Common.Int32
import KalavaPir.Framework.EditDistance

namespace KalavaPir.Common

open KalavaPir.Framework

namespace QDistance

-- otherwise the range check is unfolded in every equation of the recursion
attribute [local irreducible] int32

/-- `calMinEditDistance(str1, str1_len, str2, str2_len)` (qdistance.h:122). -/
def calMinEditDistance : List UInt8 → List UInt8 → Option ℤ
  | [], str2 => int32 (0 + str2.length)
  | a :: str1, [] => int32 ((a :: str1).length + 0)
  | a :: str1, b :: str2 =>
    if a = b then calMinEditDistance str1 str2
    else
      (calMinEditDistance str1 str2).bind fun dis1 =>
        (calMinEditDistance (a :: str1) str2).bind fun dis2 =>
          (calMinEditDistance str1 (b :: str2)).bind fun dis3 =>
            let dis1 := if dis1 < dis2 then dis1 else dis2
            let dis1 := if dis1 < dis3 then dis1 else dis3
            int32 (dis1 + 1)
termination_by str1 str2 => str1.length + str2.length
decreasing_by all_goals simp only [List.length_cons]; omega

theorem ite_lt_natCast (m n : ℕ) : (if (m : ℤ) < n then (m : ℤ) else n) = (min m n : ℕ) := by
  split <;> omega

/-- **THE RECURSION** computes the distance, and no number in it is too large. -/
theorem calMinEditDistance_eq (str1 str2 : List UInt8) :
    (str1.length : ℤ) ≤ INT32_MAX → (str2.length : ℤ) ≤ INT32_MAX →
      calMinEditDistance str1 str2 = some (greedyDistance str1 str2 : ℤ) := by
  induction str1, str2 using calMinEditDistance.induct with
  | case1 str2 =>
    intro _ h2
    rw [calMinEditDistance, greedyDistance, int32_of_le (by omega) (by omega), zero_add]
  | case2 a str1 =>
    intro h1 _
    rw [calMinEditDistance, greedyDistance, int32_of_le (by omega) (by omega), add_zero]
  | case3 str1 b str2 ih =>
    intro h1 h2
    rw [List.length_cons] at h1 h2
    rw [calMinEditDistance, greedyDistance, if_pos rfl, if_pos rfl, ih (by omega) (by omega)]
  | case4 a str1 b str2 hne ih₁ ih₂ ih₃ =>
    intro h1 h2
    -- the result is at most the greater length, which is an `int32_t`
    have hbound := greedyDistance_le (a :: str1) (b :: str2)
    rw [greedyDistance, if_neg hne] at hbound
    rw [calMinEditDistance, greedyDistance, if_neg hne, if_neg hne]
    rw [ih₂ h1 (by rw [List.length_cons] at h2; omega), ih₃ (by rw [List.length_cons] at h1; omega) h2]
    rw [List.length_cons] at h1 h2
    rw [ih₁ (by omega) (by omega), Option.bind_some, Option.bind_some, Option.bind_some]
    dsimp only
    rw [ite_lt_natCast, ite_lt_natCast]
    rw [List.length_cons, List.length_cons] at hbound
    rw [int32_of_le (by omega) (by omega)]
    rfl

section Distances

variable {str1 str2 str3 : List UInt8}

/-- **THE LEAST NUMBER OF EDITS** is returned for any two strings; hence the results
    are those of a distance. -/
theorem calMinEditDistance_isLeast (h1 : (str1.length : ℤ) ≤ INT32_MAX) (h2 : (str2.length : ℤ) ≤ INT32_MAX)
    (h3 : (str3.length : ℤ) ≤ INT32_MAX) :
    ∃ d12 d23 d13 : ℕ, calMinEditDistance str1 str2 = some (d12 : ℤ) ∧
      IsLeast {n | Edits n str1 str2} d12 ∧ calMinEditDistance str2 str1 = some (d12 : ℤ) ∧
      (d12 = 0 ↔ str1 = str2) ∧ calMinEditDistance str2 str3 = some (d23 : ℤ) ∧
      calMinEditDistance str1 str3 = some (d13 : ℤ) ∧ d13 ≤ d12 + d23 := by
  refine ⟨greedyDistance str1 str2, greedyDistance str2 str3, greedyDistance str1 str3, ?_, ?_, ?_, ?_, ?_, ?_, ?_⟩
  · exact calMinEditDistance_eq str1 str2 h1 h2
  · exact greedyDistance_isLeast str1 str2
  · rw [greedyDistance_comm]
    exact calMinEditDistance_eq str2 str1 h2 h1
  · exact greedyDistance_eq_zero_iff
  · exact calMinEditDistance_eq str2 str3 h2 h3
  · exact calMinEditDistance_eq str1 str3 h1 h3
  · exact greedyDistance_triangle str1 str2 str3

/-- `"ab"`, `"b"` and `"ba"`. -/
theorem calMinEditDistance_ab :
    ∃ d12 d23 d13 : ℕ, calMinEditDistance [97, 98] [98] = some (d12 : ℤ) ∧
      IsLeast {n | Edits n [97, 98] ([98] : List UInt8)} d12 ∧
      calMinEditDistance [98] [97, 98] = some (d12 : ℤ) ∧ (d12 = 0 ↔ ([97, 98] : List UInt8) = [98]) ∧
      calMinEditDistance [98] [98, 97] = some (d23 : ℤ) ∧
      calMinEditDistance [97, 98] [98, 97] = some (d13 : ℤ) ∧ d13 ≤ d12 + d23 :=
  calMinEditDistance_isLeast (by decide) (by decide) (by decide)

end Distances

end QDistance

end KalavaPir.Common
