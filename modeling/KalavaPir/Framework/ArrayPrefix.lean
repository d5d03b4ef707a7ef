/-
  KalavaPir.Framework.ArrayPrefix — the used cells at the front of an array.

  An array is a function of the position; its first `n` cells hold a list, and
  what lies behind them does not matter.
-/
import Mathlib.Data.List.Basic

namespace KalavaPir.Framework

open List Function

variable {A : Type}

/-! ## §1. The first cells. -/

/-- The first `n` cells. -/
def cells (a : ℕ → A) (n : ℕ) : List A := (List.range n).map a

@[simp] theorem length_cells (a : ℕ → A) (n : ℕ) : (cells a n).length = n := by
  rw [cells, length_map, length_range]

/-- One cell more, behind the others … -/
theorem cells_succ (a : ℕ → A) (n : ℕ) : cells a (n + 1) = cells a n ++ [a n] := by
  rw [cells, range_succ, map_append]
  rfl

/-- … or in front of them. -/
theorem cells_succ_eq_cons (a : ℕ → A) (n : ℕ) : cells a (n + 1) = a 0 :: cells (fun k => a (k + 1)) n := by
  rw [cells, range_succ_eq_map, map_cons, map_map]
  rfl

variable {n : ℕ}

/-- The cells in their order. -/
theorem getElem?_cells (a : ℕ → A) {i : ℕ} (hi : i < n) : (cells a n)[i]? = some (a i) := by
  rw [cells, getElem?_map, getElem?_range hi]
  rfl

/-- What stands in the first `n` cells. -/
theorem mem_cells {a : ℕ → A} {x : A} : x ∈ cells a n ↔ ∃ i < n, a i = x := by
  rw [cells, mem_map]
  simp only [mem_range]

/-- Equal cells make equal prefixes. -/
theorem cells_congr {a b : ℕ → A} (h : ∀ i, i < n → a i = b i) : cells a n = cells b n :=
  map_congr_left fun i hi => h i (mem_range.mp hi)

/-- A write behind the prefix does not show. -/
theorem cells_update_of_le (a : ℕ → A) {i : ℕ} (hi : n ≤ i) (x : A) : cells (update a i x) n = cells a n :=
  cells_congr fun k hk => update_of_ne (by omega) x a

/-- A store at the end appends, a store behind the end changes nothing. -/
theorem cells_update_self (a : ℕ → A) (n : ℕ) (x : A) : cells (update a n x) (n + 1) = cells a n ++ [x] := by
  rw [cells_succ, cells_update_of_le a (Nat.le_refl n), update_self]

/-! ## §2. Moving the rest of the array one place down. -/

/-- `for(k=j; k<j+n; ++k) a[k]=a[k+1];` -/
def shiftLeft (a : ℕ → A) (j : ℕ) : ℕ → ℕ → A
  | 0 => a
  | n + 1 => update (shiftLeft a j n) (j + n) (shiftLeft a j n (j + n + 1))

/-- Each cell of the range has its right neighbour's value. -/
theorem shiftLeft_apply (a : ℕ → A) (j n i : ℕ) :
    shiftLeft a j n i = if j ≤ i ∧ i < j + n then a (i + 1) else a i := by
  induction n generalizing i with
  | zero => rw [shiftLeft, if_neg (by omega)]
  | succ n ih =>
    rw [shiftLeft]
    by_cases hi : i = j + n
    · rw [hi, update_self, ih, if_neg (by omega), if_pos (by omega)]
    rw [update_of_ne hi, ih]
    by_cases hin : j ≤ i ∧ i < j + n
    · rw [if_pos hin, if_pos (by omega)]
    · rw [if_neg hin, if_neg (by omega)]

/-- **One element out.** -/
theorem cells_shiftLeft (a : ℕ → A) {j m : ℕ} (hj : j ≤ n) (hm : n ≤ j + m) :
    cells (shiftLeft a j m) n = (cells a (n + 1)).eraseIdx j := by
  apply ext_getElem?
  intro i
  rw [getElem?_eraseIdx]
  by_cases hi : i < n
  · rw [getElem?_cells _ hi, shiftLeft_apply]
    by_cases hlt : i < j
    · rw [if_pos hlt, if_neg (by omega), getElem?_cells _ (by omega)]
    · rw [if_neg hlt, if_pos (by omega), getElem?_cells _ (by omega)]
  · rw [if_neg (by omega), getElem?_eq_none (by rw [length_cells]; omega),
      getElem?_eq_none (by rw [length_cells]; omega)]

/-! ## §3. Moving cells down. -/

/-- `for(k=j; k<j+n; ++k) a[k]=a[k+d];` -/
def moveDown (a : ℕ → A) (j d : ℕ) : ℕ → ℕ → A
  | 0 => a
  | n + 1 => update (moveDown a j d n) (j + n) (moveDown a j d n (j + n + d))

/-- Each cell of the range has the value `d` to its right. -/
theorem moveDown_apply (a : ℕ → A) (j d n i : ℕ) :
    moveDown a j d n i = if j ≤ i ∧ i < j + n then a (i + d) else a i := by
  induction n generalizing i with
  | zero => rw [moveDown, if_neg (by omega)]
  | succ n ih =>
    rw [moveDown]
    by_cases hi : i = j + n
    · rw [hi, update_self, ih, if_neg (by omega), if_pos (by omega)]
    rw [update_of_ne hi, ih]
    by_cases hin : j ≤ i ∧ i < j + n
    · rw [if_pos hin, if_pos (by omega)]
    · rw [if_neg hin, if_neg (by omega)]

end KalavaPir.Framework
