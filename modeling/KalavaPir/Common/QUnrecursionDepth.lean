/-
  KalavaPir.Common.QUnrecursionDepth — how far `Q_Unrecursion_1K` fills its
  stack, `common/qalgorithm.h`.

  Of the two parts of a range the left one is sorted first, whichever is longer,
  and the right one waits on `stack_buf`.  So the stack holds a range for every
  partition that the range in work lies on the left of.  The rounds are those of
  the loop on a stack without an end; they stop where the sum of two positions
  is no `int32_t`.
-/
import KalavaPir.Framework.CallTree
import KalavaPir.Common.QUnrecursion
import KalavaPir.Common.Int32

namespace KalavaPir.Common

open KalavaPir.Framework

variable {K P Q : Type} [LinearOrder K]

/-! ## §1. The rounds. -/

/-- `(lBegin+lEnd)>>1` of a range that is partitioned does not overflow. -/
def SumIsInt32 (R : ℤ × ℤ) : Prop := R.1 + 1 < R.2 → IsInt32 (R.1 + R.2)

instance : DecidablePred SumIsInt32 := fun R => inferInstanceAs (Decidable (R.1 + 1 < R.2 → _))

/-- A round of `Q_FOREVER { … }`: what becomes of the range on top, and its parts. -/
def sortRound : ℤ × ℤ → Parallel K P Q → Option (Parallel K P Q × List (ℤ × ℤ)) :=
  guarded SumIsInt32 sortStep

/-- The stack and the keys after `k` rounds of qalgorithm.h:613, unless the run
    is over. -/
def unrecursionRounds (k : ℕ) (lBegin lEnd : ℤ) (tKey_1 : ℤ → K) :
    Option (List (ℤ × ℤ) × Parallel K Unit Unit) :=
  roundsOf sortRound k [(lBegin, lEnd)] (keysOf tKey_1)

/-- `stack_pos`: a range takes two cells. -/
def stackPos (stack_buf : List (ℤ × ℤ)) : ℕ := 2 * stack_buf.length

/-- The bound on `stack_pos`, throughout the run.  Within a round it is least
    after the two pops, and does not get beyond where the round ends. -/
def StackPosBounded (lBegin lEnd : ℤ) (tKey_1 : ℤ → K) : Prop :=
  ∀ k stack_buf s, unrecursionRounds k lBegin lEnd tKey_1 = some (stack_buf, s) →
    stackPos stack_buf ≤ 2 ^ 10

/-- The recursive sort of a range comes to the range `R`, on the left of `w`
    partitions whose right parts have two elements or more. -/
def LeftOf (lBegin lEnd : ℤ) (tKey_1 : ℤ → K) (R : ℤ × ℤ) (w : ℕ) : Prop :=
  ∃ s, ComesTo sortRound (lBegin, lEnd) (keysOf tKey_1) R s w

/-! ## §2. The bound. -/

section Bound

variable {lBegin lEnd : ℤ} {tKey_1 : ℤ → K}

/-- **THE STACK IS LONG ENOUGH** if and only if no range is on the left of 512
    partitions. -/
theorem stack_pos_bounded_iff (lBegin lEnd : ℤ) (tKey_1 : ℤ → K) :
    StackPosBounded lBegin lEnd tKey_1 ↔ ∀ R w, LeftOf lBegin lEnd tKey_1 R w → w < 512 := by
  constructor
  · intro hbound R w hleft
    obtain ⟨s, hcall⟩ := hleft
    obtain ⟨k, rest, hrounds, hlen⟩ := rounds_iff_calls.mpr hcall
    have hle : 2 * (rest.length + 1) ≤ 2 ^ 10 := hbound k (R :: rest) s hrounds
    omega
  · intro hleft k stack_buf s hrounds
    unfold stackPos
    cases stack_buf with
    | nil => exact Nat.zero_le _
    | cons R rest =>
      have hcall := rounds_iff_calls.mp ⟨k, rest, hrounds, rfl⟩
      have hless := hleft R rest.length ⟨s, hcall⟩
      rw [List.length_cons]
      omega

theorem sortRound_eq_some {R : ℤ × ℤ} {s : Parallel K P Q} {r : Parallel K P Q × List (ℤ × ℤ)} :
    sortRound R s = some r ↔ SumIsInt32 R ∧ sortStep R s = r :=
  guarded_eq_some

end Bound

/-! ## §3. The sort with 1024 cells. -/

section Faults

variable {s₀ : Parallel K P Q} {B E : ℤ} {size : ℕ}

theorem sumIsInt32_of_fits {R : ℤ × ℤ} (hR : 0 ≤ R.1) (h : SumFits R) : SumIsInt32 R := by
  intro hmore
  have hsum := h hmore
  unfold IsInt32 INT32_MIN INT32_MAX
  constructor
  · omega
  · omega

/-- **A run that faults** has come to a stack that is too long, or to a sum that
    does not fit. -/
theorem rounds_of_faults (hB : 0 ≤ B) (hE : E < 2 ^ 31) (fuel : ℕ) :
    ∀ {stack_buf : List (ℤ × ℤ)} {s : Parallel K P Q}, StackAt s₀ s B E stack_buf →
      Q_Unrecursion size fuel stack_buf s = .faults →
        ∃ k stack_buf' s', roundsOf sortRound k stack_buf s = some (stack_buf', s') ∧
          (size < stackPos stack_buf' ∨ ∃ R ∈ stack_buf', B ≤ R.1 ∧ R.2 ≤ E ∧ ¬ SumFits R) := by
  induction fuel with
  | zero =>
    intro stack_buf s _ hrun
    cases hrun
  | succ fuel ih =>
    intro stack_buf s h hrun
    cases stack_buf with
    | nil => cases hrun
    | cons R stack_buf =>
      obtain ⟨m, n⟩ := R
      obtain ⟨hBm, hnE⟩ := h.sorting.range (m, n) List.mem_cons_self
      -- a round whose sum fits is one of the rounds without an end of the stack
      have hwork : SumFits (m, n) → sortRound (m, n) s = some (sortStep (m, n) s) := fun hfit =>
        sortRound_eq_some.mpr ⟨sumIsInt32_of_fits (by dsimp only at hBm ⊢; omega) hfit, rfl⟩
      obtain ⟨hfit, hround⟩ | ⟨hsmall, -⟩ := Q_Unrecursion_round size hB hE h
      · rw [hround] at hrun
        obtain ⟨k, stack_buf', s', hrounds, hbad⟩ := ih h.step hrun
        exact ⟨k + 1, stack_buf', s', Option.bind_eq_some_iff.mpr ⟨_, hwork hfit, hrounds⟩, hbad⟩
      · by_cases hfit : SumFits (m, n)
        · exact ⟨1, _, _, Option.bind_eq_some_iff.mpr ⟨_, hwork hfit, rfl⟩, Or.inl (hsmall hfit)⟩
        · exact ⟨0, _, s, rfl, Or.inr ⟨(m, n), List.mem_cons_self, hBm, hnE, hfit⟩⟩

/-- On positions up to 2³⁰ it is the stack. -/
theorem not_bounded_of_faults {lBegin lEnd : ℤ} {tKey_1 : ℤ → K} (hB : 0 ≤ lBegin)
    (hE : lEnd ≤ 2 ^ 30) (h : Q_Unrecursion_1K lBegin lEnd tKey_1 = .faults) :
    ¬ StackPosBounded lBegin lEnd tKey_1 := by
  intro hbound
  unfold Q_Unrecursion_1K at h
  split at h
  next => cases h
  next hrun =>
    obtain ⟨k, stack_buf, s, hrounds, hlong | ⟨R, -, hlo, hhi, hbad⟩⟩ :=
      rounds_of_faults hB (by omega) _ (StackAt.start (keysOf tKey_1) lBegin lEnd) hrun
    · have hle := hbound k stack_buf s hrounds
      omega
    · refine hbad fun hmore => ?_
      omega
  next => cases h

end Faults

/-- **515 keys** whose sort comes to a range on the left of 512 partitions: the
    right part of the next one is written beyond the end of the stack. -/
theorem ladder_overfills_stack : ¬ StackPosBounded 0 514 (ladder 514) :=
  not_bounded_of_faults (by decide) (by decide) (Q_Unrecursion_1K_overflow (by decide : 513 ≤ 513)
    (by decide))

end KalavaPir.Common
