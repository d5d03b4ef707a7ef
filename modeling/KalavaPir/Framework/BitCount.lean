/-
  KalavaPir.Framework.BitCount — how many of the first bits are set.

  Bits are numbered from 0 on without an end, and of the first `n` of them those
  that are set are counted.
-/
import Mathlib.Data.Nat.Count

namespace KalavaPir.Framework

open Function

/-- The set bits among the first `n`. -/
def bitCount (bits : ℕ → Bool) (n : ℕ) : ℕ := Nat.count (fun p => bits p = true) n

variable {bits bits' : ℕ → Bool} {p n : ℕ}

@[simp] theorem bitCount_zero (bits : ℕ → Bool) : bitCount bits 0 = 0 := Nat.count_zero _

theorem bitCount_succ (bits : ℕ → Bool) (n : ℕ) :
    bitCount bits (n + 1) = bitCount bits n + if bits n then 1 else 0 :=
  Nat.count_succ _ n

theorem bitCount_le (bits : ℕ → Bool) (n : ℕ) : bitCount bits n ≤ n := Nat.count_le _

/-- **ONLY THE FIRST BITS COUNT.** -/
theorem bitCount_congr (h : ∀ p < n, bits' p = bits p) : bitCount bits' n = bitCount bits n := by
  induction n with
  | zero => rfl
  | succ n ih =>
    rw [bitCount_succ, bitCount_succ, ih fun p hp => h p (Nat.lt_succ_of_lt hp), h n (Nat.lt_succ_self n)]

@[simp] theorem bitCount_true (n : ℕ) : bitCount (fun _ => true) n = n := by
  induction n with
  | zero => rfl
  | succ n ih => rw [bitCount_succ, ih, if_pos rfl]

@[simp] theorem bitCount_false (n : ℕ) : bitCount (fun _ => false) n = 0 := by
  induction n with
  | zero => rfl
  | succ n ih => rw [bitCount_succ, ih, if_neg Bool.false_ne_true]

theorem bitCount_lt (hp : p < n) (hbit : bits p = false) : bitCount bits n < n := by
  induction n with
  | zero => exact absurd hp (Nat.not_lt_zero p)
  | succ n ih =>
    rw [bitCount_succ]
    rcases Nat.lt_succ_iff_lt_or_eq.mp hp with hlt | heq
    · have hone : (if bits n then 1 else 0) ≤ 1 := by split <;> omega
      omega
    · rw [← heq, hbit, if_neg Bool.false_ne_true]
      exact Nat.lt_succ_of_le (bitCount_le bits p)

/-- **ONE BIT SET.** -/
theorem bitCount_set (hp : p < n) (hbit : bits p = false) :
    bitCount (update bits p true) n = bitCount bits n + 1 := by
  induction n with
  | zero => exact absurd hp (Nat.not_lt_zero p)
  | succ n ih =>
    rw [bitCount_succ, bitCount_succ]
    rcases Nat.lt_succ_iff_lt_or_eq.mp hp with hlt | heq
    · rw [ih hlt, update_of_ne (Nat.ne_of_gt hlt), Nat.add_right_comm]
    rw [← heq, update_self, if_pos rfl, hbit, if_neg Bool.false_ne_true]
    have hsame : bitCount (update bits p true) p = bitCount bits p :=
      bitCount_congr fun r hr => update_of_ne (Nat.ne_of_lt hr) true bits
    rw [hsame]

/-- **ONE BIT UNSET.** -/
theorem bitCount_unset (hp : p < n) (hbit : bits p = true) :
    bitCount (update bits p false) n + 1 = bitCount bits n := by
  have hback : update (update bits p false) p true = bits := by
    rw [update_idem, ← hbit, update_eq_self]
  rw [← bitCount_set hp (update_self p false bits), hback]

/-- **A LOOP THAT COUNTS**, in a counter of any type. -/
theorem foldlM_bitCount {C : Type} (count : ℕ → C) {next : C → C}
    (hnext : ∀ k, next (count k) = count (k + 1)) {test : ℕ → Option Bool} (htest : ∀ p < n, test p = some (bits p)) :
    (List.range n).foldlM (fun c p => (test p).map fun b => if b then next c else c) (count 0)
      = some (count (bitCount bits n)) := by
  induction n with
  | zero => rfl
  | succ n ih =>
    rw [List.range_succ, List.foldlM_append, ih fun p hp => htest p (Nat.lt_succ_of_lt hp), bitCount_succ,
      Option.bind_eq_bind, Option.bind_some, List.foldlM_cons, htest n (Nat.lt_succ_self n), Option.map_some]
    cases bits n with
    | true =>
      rw [if_pos rfl, if_pos rfl, hnext]
      rfl
    | false => rfl

end KalavaPir.Framework
