/-
  KalavaPir.Framework.ArrayRange — a range of an array.

  An array is a function of the position, as a pointer into memory is; a
  function that works in place on the positions from `m` to `n` permutes them
  and leaves the rest alone.
-/
import Mathlib.Algebra.Group.End

namespace KalavaPir.Framework

/-! ## §1. Permutations of a range. -/

/-- Only positions from `m` to `n` move. -/
def Moves (m n : ℤ) (π : Equiv.Perm ℤ) : Prop := ∀ i, i < m ∨ n < i → π i = i

/-- Nothing moves. -/
theorem Moves.one (m n : ℤ) : Moves m n 1 := fun _ _ => rfl

variable {m n : ℤ} {π : Equiv.Perm ℤ}

/-- Permutations of a range. -/
theorem Moves.mul {ρ : Equiv.Perm ℤ} (hπ : Moves m n π) (hρ : Moves m n ρ) : Moves m n (π * ρ) := by
  intro i hi
  show π (ρ i) = i
  rw [hρ i hi, hπ i hi]

/-- It moves inside of a larger range. -/
theorem Moves.mono {m' n' : ℤ} (h : Moves m n π) (hm : m' ≤ m) (hn : n ≤ n') :
    Moves m' n' π := fun i hi => h i (by omega)

/-- A swap of two places of the range. -/
theorem Moves.swap {i j : ℤ} (hi : m ≤ i ∧ i ≤ n) (hj : m ≤ j ∧ j ≤ n) : Moves m n (Equiv.swap i j) := by
  intro k hk
  exact Equiv.swap_apply_of_ne_of_ne (by omega) (by omega)

/-- The range is mapped to itself. -/
theorem Moves.inside (h : Moves m n π) {i : ℤ} (hi : m ≤ i ∧ i ≤ n) : m ≤ π i ∧ π i ≤ n := by
  by_contra hbad
  have hfix : π (π i) = π i := h (π i) (by omega)
  have heq : π i = i := π.injective hfix
  rw [heq] at hbad
  exact hbad hi

/-- The way back. -/
theorem Moves.symm (h : Moves m n π) : Moves m n π.symm := by
  intro i hi
  rw [Equiv.symm_apply_eq]
  exact (h i hi).symm

/-- Two assignments that swap. -/
theorem update_update_eq_swap {α : Type} (a : ℤ → α) (i j : ℤ) :
    Function.update (Function.update a i (a j)) j (a i) = a ∘ Equiv.swap i j := by
  funext k
  show _ = a (Equiv.swap i j k)
  by_cases hj : k = j
  · rw [hj, Function.update_self, Equiv.swap_apply_right]
  rw [Function.update_of_ne hj]
  by_cases hi : k = i
  · rw [hi, Function.update_self, Equiv.swap_apply_left]
  · rw [Function.update_of_ne hi, Equiv.swap_apply_of_ne_of_ne hi hj]

/-! ## §2. Sorted ranges. -/

section Sorted

variable {K : Type} [Preorder K] {a : ℤ → K} {m n r : ℤ}

/-- Sorted from `m` to `n`. -/
def SortedOn (a : ℤ → K) (m n : ℤ) : Prop := ∀ i j, m ≤ i → i ≤ j → j ≤ n → a i ≤ a j

/-- At most one element is sorted. -/
theorem SortedOn.of_le (h : n ≤ m) : SortedOn a m n := by
  intro i j hi hij hj
  have heq : i = j := by omega
  rw [heq]

/-- A part of a sorted range is sorted. -/
theorem SortedOn.mono (h : SortedOn a m n) {m' n' : ℤ} (hm : m ≤ m') (hn : n' ≤ n) : SortedOn a m' n' :=
  fun i j hi hij hj => h i j (by omega) hij (by omega)

/-- **The right part is sorted after the left one.** -/
theorem SortedOn.join {π : Equiv.Perm ℤ} (hπ : Moves r n π) (hleft : SortedOn a m (r - 1))
    (hright : SortedOn (a ∘ π) r n)
    (hcross : ∀ i j, m ≤ i → i < r → r ≤ j → j ≤ n → a i ≤ a j) : SortedOn (a ∘ π) m n := by
  intro i j hi hij hj
  by_cases hri : r ≤ i
  · exact hright i j hri hij hj
  have hfix : π i = i := hπ i (by omega)
  show a (π i) ≤ a (π j)
  rw [hfix]
  by_cases hrj : r ≤ j
  · obtain ⟨hlo, hhi⟩ := hπ.inside ⟨hrj, hj⟩
    exact hcross i (π j) hi (by omega) hlo hhi
  · rw [hπ j (by omega)]
    exact hleft i j hi hij (by omega)

end Sorted

end KalavaPir.Framework
