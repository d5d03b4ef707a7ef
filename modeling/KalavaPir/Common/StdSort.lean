/-
  KalavaPir.Common.StdSort — what the code relies on from `std::sort`.

  The standard promises a permutation that is sorted for the comparator, if the
  comparator is a strict weak order; without that it promises nothing, not even
  to keep the elements, and about the order of equivalent elements it never
  promises anything.  A `StdSort` is any function that keeps this promise.
-/
import Mathlib.Data.List.Sort

namespace KalavaPir.Common

/-- The requirement `std::sort` has on its comparator. -/
structure StrictWeakOrder {α : Type} (lt : α → α → Bool) : Prop where
  asymm : ∀ a b, lt a b = true → lt b a = false
  cotrans : ∀ a b c, lt a c = true → lt a b = true ∨ lt b c = true

/-- An implementation of `std::sort`. -/
structure StdSort (α : Type) where
  sort : (α → α → Bool) → List α → List α
  perm : ∀ lt, StrictWeakOrder lt → ∀ l, (sort lt l).Perm l
  sorted : ∀ lt, StrictWeakOrder lt → ∀ l, (sort lt l).Pairwise (fun a b => lt b a = false)

/-- Merge sort is one. -/
def StdSort.merge (α : Type) : StdSort α where
  sort lt l := l.mergeSort (fun a b => !lt b a)
  perm lt _ l := List.mergeSort_perm l _
  sorted lt hlt l := by
    -- `!lt b a` is the total preorder behind the strict weak order `lt`
    have h : (l.mergeSort (fun a b => !lt b a)).Pairwise (fun a b => (!lt b a) = true) :=
      List.pairwise_mergeSort (fun a b c hab hbc => by
        simp only [Bool.not_eq_true'] at *
        by_contra hca
        rcases hlt.cotrans c b a (by simpa using hca) with h | h
        · simp [h] at hbc
        · simp [h] at hab)
      (fun a b => by
        simp only [Bool.or_eq_true, Bool.not_eq_true']
        cases hba : lt b a with
        | false => exact Or.inl rfl
        | true => exact Or.inr (hlt.asymm b a hba)) l
    exact h.imp (fun h => by simpa using h)

/-- Comparing by a key is a strict weak order. -/
theorem strictWeakOrder_key {α β : Type} [LinearOrder β] (key : α → β) :
    StrictWeakOrder (fun a b => decide (key a < key b)) where
  asymm a b h := by
    simp only [decide_eq_true_eq, decide_eq_false_iff_not, not_lt] at *
    exact le_of_lt h
  cotrans a b c h := by
    simp only [decide_eq_true_eq] at *
    rcases lt_or_ge (key a) (key b) with hab | hba
    · exact Or.inl hab
    · exact Or.inr (lt_of_le_of_lt hba h)

end KalavaPir.Common
