/-
  KalavaPir.Framework.Borders — borders of the prefixes of a pattern.

  A border of the first `i` characters of a pattern is a shorter prefix that they
  also end with.  The borders of a longest border are the shorter borders, which
  is why a table of the longest ones (`IsNext`) lists them all.
-/
import KalavaPir.Framework.Occurrences
import Mathlib.Algebra.Order.Ring.Int

namespace KalavaPir.Framework

variable {α : Type} {pat src : List α} {i b c : ℕ}

/-! ## §1. Borders. -/

/-- The `b` characters before `i` are the first ones. -/
structure IsBorder (pat : List α) (i b : ℕ) : Prop where
  lt : b < i
  same : ∀ t < b, pat[t]? = pat[i - b + t]?

theorem isBorder_zero (hi : 0 < i) : IsBorder pat i 0 := ⟨hi, fun t ht => absurd ht (Nat.not_lt_zero t)⟩

/-- Borders of borders. -/
theorem IsBorder.trans (h : IsBorder pat i b) (hc : IsBorder pat b c) : IsBorder pat i c := by
  have hlt := h.lt
  have hlt' := hc.lt
  refine ⟨by omega, fun t ht => ?_⟩
  have hinner := hc.same t ht
  have houter := h.same (b - c + t) (by omega)
  rw [show i - b + (b - c + t) = i - c + t by omega] at houter
  exact hinner.trans houter

theorem IsBorder.of_shorter (h : IsBorder pat i b) (hc : IsBorder pat i c) (hcb : c < b) :
    IsBorder pat b c := by
  have hlt := h.lt
  refine ⟨hcb, fun t ht => ?_⟩
  have hinner := hc.same t ht
  have houter := h.same (b - c + t) (by omega)
  rw [show i - b + (b - c + t) = i - c + t by omega] at houter
  exact hinner.trans houter.symm

theorem IsBorder.extend (h : IsBorder pat i b) (hnext : pat[b]? = pat[i]?) :
    IsBorder pat (i + 1) (b + 1) := by
  have hlt := h.lt
  refine ⟨by omega, fun t ht => ?_⟩
  rw [show i + 1 - (b + 1) + t = i - b + t by omega]
  by_cases heq : t = b
  · rw [heq, hnext]
    congr 1
    omega
  · exact h.same t (by omega)

theorem IsBorder.shrink (h : IsBorder pat (i + 1) (b + 1)) : IsBorder pat i b ∧ pat[b]? = pat[i]? := by
  have hlt := h.lt
  have hshift : i + 1 - (b + 1) = i - b := by omega
  constructor
  · refine ⟨by omega, fun t ht => ?_⟩
    have hsame := h.same t (by omega)
    rw [hshift] at hsame
    exact hsame
  · have hsame := h.same b (by omega)
    rw [show i + 1 - (b + 1) + b = i by omega] at hsame
    exact hsame

/-! ## §2. The longest border. -/

/-- `f` is the longest border of the first `i` characters, and -1 for none of them. -/
def IsNext (pat : List α) (i : ℕ) (f : ℤ) : Prop :=
  i = 0 ∧ f = -1 ∨ ∃ b : ℕ, f = b ∧ IsBorder pat i b ∧ ∀ c, IsBorder pat i c → c ≤ b

/-- `f` is a border, or -1, and the longer borders do not go on with the next character. -/
structure Candidate (pat : List α) (i : ℕ) (f : ℤ) : Prop where
  border : f = -1 ∨ ∃ b : ℕ, f = b ∧ IsBorder pat i b
  longer : ∀ c : ℕ, IsBorder pat i c → f < c → pat[c]? ≠ pat[i]?

variable {f : ℤ}

theorem IsNext.lt (h : IsNext pat i f) : f < i := by
  rcases h with ⟨-, heq⟩ | ⟨b, heq, hborder, -⟩
  · omega
  · have hlt := hborder.lt
    omega

theorem IsNext.candidate (h : IsNext pat i f) : Candidate pat i f := by
  rcases h with ⟨rfl, rfl⟩ | ⟨b, rfl, hb, hmax⟩
  · exact ⟨Or.inl rfl, fun c hc => absurd hc.lt (Nat.not_lt_zero c)⟩
  · refine ⟨Or.inr ⟨b, rfl, hb⟩, fun c hc hlt => ?_⟩
    have hle := hmax c hc
    omega

/-- **The candidate goes on** with the next character. -/
theorem Candidate.extend (h : Candidate pat i b) (hb : IsBorder pat i b) (hnext : pat[b]? = pat[i]?) :
    IsNext pat (i + 1) ((b : ℤ) + 1) := by
  refine Or.inr ⟨b + 1, by push_cast; rfl, hb.extend hnext, fun c hc => ?_⟩
  cases c with
  | zero => exact Nat.zero_le _
  | succ c =>
    obtain ⟨hborder, hsame⟩ := hc.shrink
    by_contra hlong
    exact h.longer c hborder (by omega) hsame

theorem Candidate.restart (h : Candidate pat i (-1)) : IsNext pat (i + 1) 0 := by
  refine Or.inr ⟨0, rfl, isBorder_zero (Nat.succ_pos i), fun c hc => ?_⟩
  cases c with
  | zero => exact le_rfl
  | succ c =>
    obtain ⟨hborder, hsame⟩ := hc.shrink
    exact absurd hsame (h.longer c hborder (by omega))

/-- **The next candidate** is the longest border of this one. -/
theorem Candidate.fall (h : Candidate pat i b) (hb : IsBorder pat i b) (hne : pat[b]? ≠ pat[i]?)
    (hf : IsNext pat b f) : Candidate pat i f := by
  constructor
  · rcases hf with ⟨-, rfl⟩ | ⟨c, rfl, hc, -⟩
    · exact Or.inl rfl
    · exact Or.inr ⟨c, rfl, hb.trans hc⟩
  · intro c hc hlt
    -- longer than this candidate, this one, or one of its own borders
    rcases Nat.lt_trichotomy c b with hcb | rfl | hcb
    · exfalso
      have hshort := hb.of_shorter hc hcb
      rcases hf with ⟨rfl, -⟩ | ⟨d, rfl, -, hmax⟩
      · omega
      · have hle := hmax c hshort
        omega
    · exact hne
    · exact h.longer c hc (by omega)

/-! ## §3. A pattern against a text. -/

/-- The first `posP` characters of the pattern end before the place `posS` of
    the text, and the pattern does not occur any further to the left. -/
structure Aligned (pat src : List α) (posP : ℤ) (posS : ℕ) : Prop where
  prefix_ : posP = -1 ∨ ∃ b : ℕ, posP = b ∧ b ≤ posS ∧ b ≤ pat.length ∧
    ∀ t < b, src[posS - b + t]? = pat[t]?
  before : ∀ q : ℕ, (q : ℤ) < posS - posP → ¬ pat <+: src.drop q

theorem aligned_start (pat src : List α) : Aligned pat src 0 0 where
  prefix_ := Or.inr ⟨0, rfl, le_rfl, Nat.zero_le _, fun t ht => absurd ht (Nat.not_lt_zero t)⟩
  before q hq := by omega

variable {posS : ℕ}

/-- **A match**: both go on. -/
theorem Aligned.extend (h : Aligned pat src b posS) (hb : b < pat.length)
    (hsame : src[posS]? = pat[b]?) : Aligned pat src ((b : ℤ) + 1) (posS + 1) := by
  obtain hbad | ⟨c, hc, hle, -, hprefix⟩ := h.prefix_
  · omega
  obtain rfl : b = c := by omega
  constructor
  · refine Or.inr ⟨b + 1, by push_cast; rfl, by omega, by omega, fun t ht => ?_⟩
    rw [show posS + 1 - (b + 1) + t = posS - b + t by omega]
    by_cases heq : t = b
    · rw [heq, show posS - b + b = posS by omega]
      exact hsame
    · exact hprefix t (by omega)
  · intro q hq
    refine h.before q ?_
    omega

theorem Aligned.restart (h : Aligned pat src (-1) posS) : Aligned pat src 0 (posS + 1) where
  prefix_ := Or.inr ⟨0, rfl, Nat.zero_le _, Nat.zero_le _, fun t ht => absurd ht (Nat.not_lt_zero t)⟩
  before q hq := by
    refine h.before q ?_
    omega

/-- **A mismatch**: the pattern moves on to its longest border. -/
theorem Aligned.fall (h : Aligned pat src b posS) (hb : b < pat.length) (hne : src[posS]? ≠ pat[b]?)
    (hf : IsNext pat b f) : Aligned pat src f posS := by
  obtain hbad | ⟨c, hc, hle, -, hprefix⟩ := h.prefix_
  · omega
  obtain rfl : b = c := by omega
  constructor
  · rcases hf with ⟨-, rfl⟩ | ⟨c, rfl, hborder, -⟩
    · exact Or.inl rfl
    have hlt := hborder.lt
    refine Or.inr ⟨c, rfl, by omega, by omega, fun t ht => ?_⟩
    rw [hborder.same t ht, ← hprefix (b - c + t) (by omega)]
    congr 1
    omega
  · intro q hq hoccurs
    rw [prefix_drop_iff] at hoccurs
    by_cases hfar : (q : ℤ) < posS - b
    · exact h.before q hfar (prefix_drop_iff.mpr hoccurs)
    -- the pattern would have to go on with a shorter border, or to match here
    · obtain ⟨d, rfl⟩ : ∃ d, posS = q + d := ⟨posS - q, by
        have hqs : (q : ℤ) ≤ posS := by
          rcases hf with ⟨rfl, rfl⟩ | ⟨c, rfl, -, -⟩
          · omega
          · omega
        omega⟩
      by_cases hall : d = b
      · exact hne (by rw [hall]; exact hoccurs b hb)
      have hborder : IsBorder pat b d := by
        refine ⟨by omega, fun t ht => ?_⟩
        rw [← hoccurs t (by omega), ← hprefix (b - d + t) (by omega)]
        congr 1
        omega
      rcases hf with ⟨rfl, -⟩ | ⟨c, rfl, -, hmax⟩
      · omega
      · have hle' := hmax d hborder
        omega

end KalavaPir.Framework
