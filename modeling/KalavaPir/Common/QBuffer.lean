/-
  KalavaPir.Common.QBuffer — the growing buffer of `common/qbuffer.h`.

  `pstart_` is the block (`none` for NULL) and the other three pointers are
  distances from it: the bytes that wait to be read lie between `pdata_` and
  `pfree_`, the free ones between `pfree_` and `pend_`.  `expand`, `strip` and
  `shrink` are in `QBufferRuns`.

  Sizes are `int64_t`.  A size is doubled until it is large enough, and `none`
  is a doubling that leaves the 64 bits; it is also an assertion that fails.
-/
import KalavaPir.Framework.Memory
import Mathlib.Algebra.Order.Ring.Int

namespace KalavaPir.Common

open KalavaPir.Framework

/-- `class QBuffer`. -/
structure QBuffer where
  pstart_ : Option Memory
  pend_ : ℕ
  pfree_ : ℕ
  pdata_ : ℕ

namespace QBuffer

/-! ## §1. The functions. -/

/-- `QBuffer()` -/
def new : QBuffer := ⟨none, 0, 0, 0⟩

/-- What a pointer to a place in the block sees. -/
def seenFrom (b : QBuffer) (p : ℕ) : Option Memory := b.pstart_.map (fun block i => block (p + i))

/-- The bytes from the first unread one on. -/
def get_data (b : QBuffer) : Option Memory := b.seenFrom b.pdata_
/-- How many bytes are unread. -/
def get_data_length (b : QBuffer) : ℤ := b.pfree_ - b.pdata_
/-- The place for the next byte. -/
def get_free (b : QBuffer) : Option Memory := b.seenFrom b.pfree_
/-- How many bytes are free. -/
def get_free_length (b : QBuffer) : ℤ := b.pend_ - b.pfree_
/-- The size of the block. -/
def get_buf_length (b : QBuffer) : ℤ := b.pend_

/-- The block after a function wrote through `get_free()`. -/
def storeFree (b : QBuffer) (free : Memory) : QBuffer :=
  { b with pstart_ := b.pstart_.map (fun block i => if b.pfree_ ≤ i then free (i - b.pfree_) else block i) }

/-- Everything has been read. -/
def clear (b : QBuffer) : QBuffer := { b with pdata_ := 0, pfree_ := 0 }

/-- The first `length` bytes have been read. -/
def drain (b : QBuffer) (length : ℕ) : ℤ × QBuffer :=
  match b.pstart_ with
  | none => (-1, b)
  | some _ =>
    let b := { b with pdata_ := b.pdata_ + length }
    (0, if b.pdata_ ≥ b.pfree_ then b.clear else b)

/-- `length` bytes have been written. -/
def pour (b : QBuffer) (length : ℕ) : Option (ℤ × QBuffer) :=
  if b.get_free_length ≥ length then
    match b.pstart_ with
    | none => some (-1, b)
    | some _ => some (0, { b with pfree_ := b.pfree_ + length })
  else none

/-- `while(size<need) size<<=1;`, in at most the given number of rounds. -/
def double (need : ℤ) : ℕ → ℤ → Option ℤ
  | 0, _ => none
  | k + 1, size =>
    if size < need then if 2 * size < 2 ^ 63 then double need k (2 * size) else none else some size

/-- The 63 bits of a positive size leave no room for more rounds. -/
def rounds : ℕ := 64

/-- The first size that `expand` tries. -/
def DEFAULT_MALLOC_SIZE : ℤ := 256

/-! ## §2. Doubling. -/

theorem two_mul_pow_lt {j : ℕ} : (2 * 2 ^ j : ℤ) < 2 ^ 63 ↔ j < 62 := by
  rw [← pow_succ', pow_lt_pow_iff_right₀ (by decide)]
  omega

theorem toNat_two_pow (i : ℕ) : (2 ^ i : ℤ).toNat = 2 ^ i := by
  rw [show (2 ^ i : ℤ) = ((2 ^ i : ℕ) : ℤ) by push_cast; rfl, Int.toNat_natCast]

/-- A power of two is doubled until it is large enough … -/
theorem double_of_le {need : ℤ} (hneed : need ≤ 2 ^ 62) (k : ℕ) : ∀ {j : ℕ}, j ≤ 62 → 62 < j + k →
    ∃ i, j ≤ i ∧ i ≤ 62 ∧ double need k (2 ^ j) = some (2 ^ i) ∧ need ≤ 2 ^ i := by
  induction k with
  | zero =>
    intro j hj hk
    omega
  | succ k ih =>
    intro j hj hk
    unfold double
    by_cases hlt : (2 ^ j : ℤ) < need
    · have hj' : j < 62 := by
        by_contra hge
        have heq : j = 62 := by omega
        rw [heq] at hlt
        omega
      obtain ⟨i, hi, hi', hrun, hle⟩ := ih (j := j + 1) (by omega) (by omega)
      rw [if_pos hlt, if_pos (two_mul_pow_lt.mpr hj'), ← pow_succ']
      exact ⟨i, by omega, hi', hrun, hle⟩
    · rw [if_neg hlt]
      exact ⟨j, Nat.le_refl j, hj, rfl, by omega⟩

/-- … and none is, beyond 2⁶². -/
theorem double_of_gt {need : ℤ} (hneed : 2 ^ 62 < need) (k : ℕ) : ∀ {j : ℕ}, j ≤ 62 →
    double need k (2 ^ j) = none := by
  induction k with
  | zero => exact fun _ => rfl
  | succ k ih =>
    intro j hj
    unfold double
    have hpow : (2 ^ j : ℤ) ≤ 2 ^ 62 := pow_le_pow_right₀ (by decide) hj
    rw [if_pos (by omega)]
    by_cases hj' : j < 62
    · rw [if_pos (two_mul_pow_lt.mpr hj'), ← pow_succ']
      exact ih hj'
    · rw [if_neg (fun hlt => hj' (two_mul_pow_lt.mp hlt))]

/-! ## §3. The bytes in the buffer. -/

/-- **The invariant**: the bytes `bs` wait to be read. -/
structure Holds (b : QBuffer) (bs : List UInt8) : Prop where
  bytes : ∀ block, b.pstart_ = some block → block.read b.pdata_ bs.length = bs
  length : b.pfree_ = b.pdata_ + bs.length
  within : b.pfree_ ≤ b.pend_
  null : b.pstart_ = none → b.pfree_ = 0
  size : b.pstart_ ≠ none → ∃ i, 8 ≤ i ∧ i ≤ 62 ∧ b.pend_ = 2 ^ i

/-- The block can be made large enough, if it has to be. -/
def Fits (b : QBuffer) (need : ℤ) : Prop :=
  match b.pstart_ with
  | none => need ≤ 2 ^ 62
  | some _ =>
    b.get_free_length < need →
    b.get_free_length + b.pdata_ < need ∨ (b.get_free_length + b.pdata_) * 4 < b.get_data_length →
    b.get_buf_length < 2 ^ 62 ∧ need + b.get_data_length ≤ 2 ^ 62

section Holds

variable {b : QBuffer} {bs : List UInt8}

theorem holds_new : Holds new [] where
  bytes block h := absurd h (by simp [new])
  length := rfl
  within := Nat.le_refl 0
  null _ := rfl
  size h := absurd rfl h

/-- Without a block there are no bytes. -/
theorem Holds.nil (h : Holds b bs) (hnull : b.pstart_ = none) : bs = [] := by
  have hfree := h.null hnull
  have hlen := h.length
  exact List.length_eq_zero_iff.mp (by omega)

theorem Holds.get_data_length (h : Holds b bs) : b.get_data_length = bs.length := by
  unfold QBuffer.get_data_length
  rw [h.length]
  omega

variable {block : Memory}

theorem holds_front {i : ℕ} (hi : 8 ≤ i ∧ i ≤ 62) (hle : bs.length ≤ 2 ^ i) :
    Holds ⟨some (block.write 0 bs), 2 ^ i, bs.length, 0⟩ bs where
  bytes block' h := by
    injection h with heq
    rw [← heq]
    exact Memory.read_write_self block 0 bs
  length := (Nat.zero_add _).symm
  within := hle
  null h := absurd h (by simp)
  size _ := ⟨i, hi.1, hi.2, rfl⟩

/-! ## §4. Bytes come and go. -/

/-- Bytes written through `get_free()`. -/
theorem storeFree_write (hblock : b.pstart_ = some block) (w : List UInt8) :
    b.storeFree (Memory.write (fun i => block (b.pfree_ + i)) 0 w) =
      { b with pstart_ := some (block.write b.pfree_ w) } := by
  unfold storeFree
  rw [hblock, Option.map_some]
  congr 2
  funext i
  unfold Memory.write
  by_cases hi : b.pfree_ ≤ i
  · rw [if_pos hi, Nat.sub_zero]
    by_cases hi' : i < b.pfree_ + w.length
    · rw [if_pos (by omega), if_pos ⟨hi, hi'⟩]
    · rw [if_neg (by omega), if_neg (by omega)]
      show block (b.pfree_ + (i - b.pfree_)) = block i
      rw [Nat.add_sub_cancel' hi]
  · rw [if_neg hi, if_neg (by omega)]

variable {w : List UInt8}

/-- **Bytes are appended**, by a function that wrote them and by `pour`. -/
theorem Holds.put (h : Holds b bs) (hblock : b.pstart_ = some block)
    (hroom : (w.length : ℤ) ≤ b.get_free_length) :
    ∃ b', (b.storeFree (Memory.write (fun i => block (b.pfree_ + i)) 0 w)).pour w.length = some (0, b') ∧
      Holds b' (bs ++ w) := by
  have hlen := h.length
  unfold get_free_length at hroom
  rw [storeFree_write hblock]
  unfold pour get_free_length
  rw [if_pos (by omega)]
  refine ⟨_, rfl, ?_, ?_, ?_, fun hno => absurd hno (by simp), ?_⟩
  · intro block' heq
    injection heq with heq
    show block'.read b.pdata_ (bs ++ w).length = bs ++ w
    rw [← heq, List.length_append, Memory.read_add, ← hlen, Memory.read_write_self,
      Memory.read_write_of_disjoint block (by omega), h.bytes block hblock]
  · show b.pfree_ + w.length = b.pdata_ + (bs ++ w).length
    rw [List.length_append]
    omega
  · show b.pfree_ + w.length ≤ b.pend_
    omega
  · intro _
    exact h.size (by simp [hblock])

theorem Holds.read (h : Holds b bs) (hblock : b.pstart_ = some block) :
    Memory.read (fun i => block (b.pdata_ + i)) 0 bs.length = bs := by
  have hbytes := h.bytes block hblock
  rw [← hbytes]
  rw [Memory.length_read]
  apply Memory.read_congr
  intro i _
  rw [Nat.zero_add]

/-- **`drain` takes bytes away.** -/
theorem Holds.drain (h : Holds b (w ++ bs)) (hsome : b.pstart_ ≠ none) :
    (b.drain w.length).1 = 0 ∧ Holds (b.drain w.length).2 bs := by
  have hlen := h.length
  rw [List.length_append] at hlen
  obtain ⟨block, hblock⟩ := Option.ne_none_iff_exists'.mp hsome
  have hread := h.bytes block hblock
  obtain ⟨-, hrest⟩ := Memory.read_eq_append hread
  have hwithin := h.within
  unfold QBuffer.drain
  rw [hblock]
  dsimp only
  by_cases hend : b.pdata_ + w.length ≥ b.pfree_
  · -- everything has been read: both pointers go back to the start
    rw [if_pos hend]
    have hnil : bs = [] := List.length_eq_zero_iff.mp (by omega)
    rw [hnil]
    exact ⟨rfl, fun _ _ => rfl, rfl, Nat.zero_le _, fun hno => absurd hno (by simp [clear]),
      fun _ => h.size hsome⟩
  rw [if_neg hend]
  refine ⟨rfl, ?_, ?_, hwithin, fun hno => absurd hno (by simp), fun _ => h.size hsome⟩
  · intro block' heq
    injection heq with heq
    rw [← heq]
    exact hrest
  · show b.pfree_ = b.pdata_ + w.length + bs.length
    omega

end Holds

end QBuffer

end KalavaPir.Common
