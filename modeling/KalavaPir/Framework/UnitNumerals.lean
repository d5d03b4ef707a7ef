/-
  KalavaPir.Framework.UnitNumerals — numerals of digits and units, as Chinese has them.

  A number below `10 ^ 12` has three levels of four places each: the hundred millions,
  the ten thousands, and the rest.  In a level every digit but 0 is read with the unit of
  its place, one zero stands for the zeros in front of a digit, and the zeros at the end
  of a level are not read.  The unit of the level follows, unless all of it is zero.
-/
import Mathlib.Algebra.BigOperators.Group.List.Basic

namespace KalavaPir.Framework.UnitNumeral

open List

/-! ## §1. Numerals. -/

/-- The signs of a numeral. -/
inductive Glyph
  | digit (d : ℕ)
  | ten
  | hundred
  | thousand
  | tenThousand
  | hundredMillion
  deriving DecidableEq

/-- The digits of a level in front of the last one, with their units. -/
def upper (g : ℕ) : List (ℕ × Glyph) :=
  [(g / 1000 % 10, .thousand), (g / 100 % 10, .hundred), (g / 10 % 10, .ten)]

/-- `zero`: have zeros been passed that are to be read in front of the next digit? -/
def readUpper (zero : Bool) : List (ℕ × Glyph) → List Glyph
  | [] => []
  | (d, unit) :: ps =>
    if d = 0 then readUpper true ps
    else (if zero then [.digit 0] else []) ++ [.digit d, unit] ++ readUpper false ps

/-- Are there zeros in front of the last place? -/
def zeroBehind (zero : Bool) : List (ℕ × Glyph) → Bool
  | [] => zero
  | (d, _) :: ps => zeroBehind (d = 0) ps

/-- The last digit of a group. -/
def readLast (zero : Bool) (d : ℕ) : List Glyph :=
  if d = 0 then [] else (if zero then [.digit 0] else []) ++ [.digit d]

/-- A level: `started` if there is a level in front of it, `skipped` if the one in front
of it is zero. -/
def level (started skipped : Bool) (g : ℕ) : List Glyph :=
  let ps := if started then upper g else (upper g).dropWhile fun p => p.1 = 0
  readUpper (started && skipped) ps ++ readLast (zeroBehind (started && skipped) ps) (g % 10)

/-- The levels of a number. -/
def hundredMillions (n : ℕ) : ℕ := n / 10 ^ 8
/-- The upper and the lower four digits. -/
def tenThousands (n : ℕ) : ℕ := n / 10 ^ 4 % 10 ^ 4
def ones (n : ℕ) : ℕ := n % 10 ^ 4

/-- How a number is written. -/
def numeral (n : ℕ) : List Glyph :=
  (if hundredMillions n = 0 then [] else level false false (hundredMillions n) ++ [.hundredMillion])
    ++ (if tenThousands n = 0 then []
      else level (hundredMillions n ≠ 0) false (tenThousands n) ++ [.tenThousand])
    ++ (if ones n = 0 then []
      else level (hundredMillions n ≠ 0 ∨ tenThousands n ≠ 0) (tenThousands n = 0) (ones n))

/-! ## §2. Their glyphs. -/

section Glyphs

variable {P : Glyph → Prop} (hdigit : ∀ d < 10, P (.digit d)) (hunit : ∀ g, (∀ d, g ≠ .digit d) → P g)

include hunit in
theorem forall_upper (g : ℕ) : ∀ p ∈ upper g, p.1 < 10 ∧ P p.2 := by
  have hlt : ∀ m, m % 10 < 10 := fun m => Nat.mod_lt m (by decide)
  unfold upper
  rw [forall_mem_cons, forall_mem_cons, forall_mem_singleton]
  exact ⟨⟨hlt _, hunit _ nofun⟩, ⟨hlt _, hunit _ nofun⟩, hlt _, hunit _ nofun⟩

include hdigit

theorem forall_zero (zero : Bool) : ∀ g ∈ (if zero then [Glyph.digit 0] else []), P g := by
  cases zero with
  | false => exact nofun
  | true => exact forall_mem_singleton.mpr (hdigit 0 (by decide))

theorem forall_readUpper (zero : Bool) {ps : List (ℕ × Glyph)} (hps : ∀ p ∈ ps, p.1 < 10 ∧ P p.2) :
    ∀ g ∈ readUpper zero ps, P g := by
  induction ps generalizing zero with
  | nil => exact nofun
  | cons p ps ih =>
    obtain ⟨⟨hd, hu⟩, hps⟩ := forall_mem_cons.mp hps
    unfold readUpper
    split
    · exact ih true hps
    · rw [forall_mem_append, forall_mem_append, forall_mem_cons,
        forall_mem_singleton]
      exact ⟨⟨forall_zero hdigit zero, hdigit _ hd, hu⟩, ih false hps⟩

theorem forall_readLast (zero : Bool) {d : ℕ} (hd : d < 10) : ∀ g ∈ readLast zero d, P g := by
  unfold readLast
  split
  · exact nofun
  · rw [forall_mem_append, forall_mem_singleton]
    exact ⟨forall_zero hdigit zero, hdigit d hd⟩

include hunit

/-- What holds of digits and units holds of a level. -/
theorem forall_level (started skipped : Bool) (g : ℕ) : ∀ d ∈ level started skipped g, P d := by
  have hupper := forall_upper hunit g
  unfold level
  rw [forall_mem_append]
  constructor
  · apply forall_readUpper hdigit
    intro p hp
    split at hp
    · exact hupper p hp
    · exact hupper p ((dropWhile_sublist _).subset hp)
  · exact forall_readLast hdigit _ (Nat.mod_lt g (by decide))

/-- **The glyphs of a numeral** are digits and units. -/
theorem forall_numeral (n : ℕ) : ∀ g ∈ numeral n, P g := by
  have hlevel : ∀ started skipped g, ∀ unit, P unit →
      ∀ d ∈ (if g = 0 then [] else level started skipped g ++ [unit]), P d := by
    intro started skipped g unit hu
    split
    · exact nofun
    · rw [forall_mem_append, forall_mem_singleton]
      exact ⟨forall_level hdigit hunit started skipped g, hu⟩
  unfold numeral
  rw [forall_mem_append, forall_mem_append]
  refine ⟨⟨hlevel _ _ _ _ (hunit _ nofun), hlevel _ _ _ _ (hunit _ nofun)⟩, ?_⟩
  split
  · exact nofun
  · exact forall_level hdigit hunit _ _ _

end Glyphs

/-! ## §3. Their values. -/

/-- **The levels of a number** add up to it. -/
theorem levels_value (n : ℕ) : 10 ^ 8 * hundredMillions n + 10 ^ 4 * tenThousands n + ones n = n := by
  unfold hundredMillions tenThousands ones
  omega

/-- Four digits. -/
theorem tenThousands_lt (n : ℕ) : tenThousands n < 10 ^ 4 := Nat.mod_lt _ (by decide)

/-- Four digits. -/
theorem ones_lt (n : ℕ) : ones n < 10 ^ 4 := Nat.mod_lt _ (by decide)

/-- The last digit of the number. -/
theorem ones_mod (n : ℕ) : ones n % 10 = n % 10 := by
  unfold ones
  omega

end KalavaPir.Framework.UnitNumeral
