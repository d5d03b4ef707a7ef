/-
  KalavaPir.Framework.Memory — a block of memory.

  A block is what the pointer to it sees: a byte at each distance.  `read` is
  the source of a `memcpy` and `write` its target.
-/
import Mathlib.Data.List.GetD
import Mathlib.Tactic.Common

namespace KalavaPir.Framework

open List

/-- A byte at every address. -/
abbrev Memory : Type := ℕ → UInt8

namespace Memory

/-- The `n` bytes from `p` on. -/
def read (m : Memory) (p n : ℕ) : List UInt8 := (List.range n).map (fun i => m (p + i))

/-- Bytes from an address on. -/
def write (m : Memory) (p : ℕ) (bs : List UInt8) : Memory :=
  fun i => if p ≤ i ∧ i < p + bs.length then bs.getD (i - p) 0 else m i

@[simp] theorem length_read (m : Memory) (p n : ℕ) : (m.read p n).length = n := by
  unfold read
  rw [length_map, length_range]

/-- A read depends on its bytes alone. -/
theorem read_congr {m m' : Memory} {p p' n : ℕ} (h : ∀ i < n, m (p + i) = m' (p' + i)) :
    m.read p n = m'.read p' n := by
  apply map_congr_left
  intro i hi
  exact h i (mem_range.mp hi)

/-- Two reads in a row are one. -/
theorem read_add (m : Memory) (p k n : ℕ) : m.read p (k + n) = m.read p k ++ m.read (p + k) n := by
  unfold read
  rw [range_add, map_append, map_map]
  congr 1
  apply map_congr_left
  intro i _
  show m (p + (k + i)) = m (p + k + i)
  rw [Nat.add_assoc]

/-- One read is two in a row. -/
theorem read_eq_append {m : Memory} {p : ℕ} {a b : List UInt8} (h : m.read p (a ++ b).length = a ++ b) :
    m.read p a.length = a ∧ m.read (p + a.length) b.length = b := by
  rw [length_append, read_add] at h
  exact append_inj h (length_read m p a.length)

/-- What was written is read. -/
theorem read_write_self (m : Memory) (p : ℕ) (bs : List UInt8) : (m.write p bs).read p bs.length = bs := by
  unfold read
  apply ext_getElem
  · rw [length_map, length_range]
  · intro i hi hi'
    rw [getElem_map, getElem_range]
    unfold write
    rw [if_pos (by omega), Nat.add_sub_cancel_left, getD_eq_getElem _ _ hi']

/-- What was not written is read as before. -/
theorem read_write_of_disjoint (m : Memory) {p q n : ℕ} {bs : List UInt8}
    (h : q + n ≤ p ∨ p + bs.length ≤ q) : (m.write p bs).read q n = m.read q n := by
  apply read_congr
  intro i hi
  unfold write
  rw [if_neg (by omega)]

/-- Two writes in a row are one. -/
theorem write_append (m : Memory) (p : ℕ) (a b : List UInt8) :
    (m.write p a).write (p + a.length) b = m.write p (a ++ b) := by
  funext i
  unfold write
  rw [length_append]
  by_cases hb : p + a.length ≤ i ∧ i < p + a.length + b.length
  · rw [if_pos hb, if_pos (by omega), getD_append_right _ _ _ _ (by omega)]
    congr 1
    omega
  rw [if_neg hb]
  by_cases ha : p ≤ i ∧ i < p + a.length
  · rw [if_pos ha, if_pos (by omega), getD_append _ _ _ _ (by omega)]
  · rw [if_neg ha, if_neg (by omega)]

end Memory

end KalavaPir.Framework
