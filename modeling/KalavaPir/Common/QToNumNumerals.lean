/-
  KalavaPir.Common.QToNumNumerals — the numerals that `q_to_num` reads, `common/qfunc.h`.

  A numeral gives a group of cells for each of its levels.  What `__num` makes of them is
  the number, or less: where the ten thousands are a group behind the hundred millions,
  cells are lost.
-/
import KalavaPir.Common.QToNumReading

namespace KalavaPir.Common

open KalavaPir.Framework List
open KalavaPir.Framework.UnitNumeral

namespace QToNum

/-! ## §1. The cells of a numeral. -/

/-- The digits that are not 0, with the numbers of their units. -/
def cellsOf (ps : List (ℕ × Glyph)) : List (ℤ × ℤ) :=
  (ps.filter fun p => p.1 ≠ 0).map fun p => ((p.1 : ℤ), (number p.2 : ℤ))

/-- The cells of a level in front of its last digit. -/
def groupCells (g : ℕ) : List (ℤ × ℤ) := cellsOf (upper g)

/-- The cells of a level with a unit. -/
def levelCells (g : ℕ) (unit : ℤ) : List (ℤ × ℤ) :=
  if g = 0 then [] else groupCells g ++ [(((g % 10 : ℕ) : ℤ), unit)]

/-- The cells that a numeral leaves. -/
def numeralCells (n : ℕ) : List (ℤ × ℤ) :=
  levelCells (hundredMillions n) 14 ++ levelCells (tenThousands n) 13 ++ groupCells (ones n)

section Cells

variable {E : List (ℤ × ℤ)} {y zero : Bool} {d g n : ℕ} {ps : List (ℕ × Glyph)} {gs hs : List Glyph}
  {s s' s'' : Read}

/-- A zero leaves no cell. -/
theorem cellsOf_zero (p : ℕ × Glyph) (h : p.1 = 0) : cellsOf (p :: ps) = cellsOf ps := by
  unfold cellsOf
  rw [filter_cons_of_neg (by simpa using h)]

/-- Another digit leaves one. -/
theorem cellsOf_digit (p : ℕ × Glyph) (h : p.1 ≠ 0) :
    cellsOf (p :: ps) = ((p.1 : ℤ), (number p.2 : ℤ)) :: cellsOf ps := by
  unfold cellsOf
  rw [filter_cons_of_pos (by simpa using h), map_cons]

/-- One cell for a digit at most. -/
theorem length_cellsOf (ps : List (ℕ × Glyph)) : (cellsOf ps).length ≤ ps.length := by
  unfold cellsOf
  rw [length_map]
  exact length_filter_le _ _

/-- Zeros in front leave none. -/
theorem cellsOf_dropWhile (ps : List (ℕ × Glyph)) : cellsOf (ps.dropWhile fun p => p.1 = 0) = cellsOf ps := by
  induction ps with
  | nil => rfl
  | cons p ps ih =>
    by_cases h : p.1 = 0
    · rw [dropWhile_cons_of_pos (by simpa using h), ih, cellsOf_zero p h]
    · rw [dropWhile_cons_of_neg (by simpa using h)]

/-- Behind a digit the flag is known. -/
theorem zeroBehind_dropWhile (ps : List (ℕ × Glyph)) (zero zero' : Bool) :
    ps.dropWhile (fun p => p.1 = 0) = []
      ∨ zeroBehind zero (ps.dropWhile fun p => p.1 = 0) = zeroBehind zero' ps := by
  induction ps generalizing zero' with
  | nil => exact Or.inl rfl
  | cons p ps ih =>
    by_cases h : p.1 = 0
    · rw [dropWhile_cons_of_pos (by simpa using h)]
      exact ih _
    · rw [dropWhile_cons_of_neg (by simpa using h)]
      exact Or.inr rfl

/-- One part is read behind the other. -/
theorem readGlyphs_append (hs : List Glyph) (h : readGlyphs gs s = some s') :
    readGlyphs (gs ++ hs) s = readGlyphs hs s' := by
  induction gs generalizing s with
  | nil =>
    cases h
    rfl
  | cons g gs ih =>
    obtain ⟨s₁, hg, hgs⟩ := Option.bind_eq_some_iff.mp h
    show (readGlyph s g).bind (readGlyphs (gs ++ hs)) = _
    rw [hg, Option.bind_some]
    exact ih hgs

/-- A unit ends its cell. -/
theorem readGlyph_unit (hroom : E.length < 32) (x : ℤ) {unit : Glyph} (hunit : 10 ≤ number unit) :
    readGlyph ⟨E, x, y⟩ unit = some ⟨E ++ [(x, (number unit : ℤ))], 0, true⟩ := by
  unfold readGlyph
  rw [if_neg (not_le.mpr hroom), if_pos hunit]

/-- A digit begins one. -/
theorem readGlyph_digit (hroom : E.length < 32) (hd : d < 10) :
    readGlyph ⟨E, 0, y⟩ (.digit d) = some ⟨E, d, if d = 0 then false else y⟩ := by
  have hdigit : int32 (0 * 10 + (d : ℤ)) = some (d : ℤ) := by
    rw [zero_mul, zero_add]
    exact int32_of_le (by omega) (by unfold INT32_MAX; omega)
  have hnumber : number (.digit d) = d := rfl
  unfold readGlyph
  rw [if_neg (not_le.mpr hroom), hnumber, if_neg (not_le.mpr hd)]
  rw [hdigit]
  rfl

/-- A digit, with the zero in front of it. -/
theorem readGlyphs_digit (hroom : E.length < 32) (hd : d < 10) (h0 : d ≠ 0) (zero : Bool) :
    readGlyphs ((if zero then [.digit 0] else []) ++ [.digit d]) ⟨E, 0, y⟩ = some ⟨E, d, y && !zero⟩ := by
  have hdigit : ∀ y, readGlyphs [.digit d] ⟨E, 0, y⟩ = some ⟨E, d, y⟩ := by
    intro y
    show (readGlyph _ _).bind _ = _
    rw [readGlyph_digit hroom hd, if_neg h0]
    rfl
  cases zero with
  | false =>
    rw [Bool.not_false, Bool.and_true]
    exact hdigit y
  | true =>
    have hread : readGlyphs [.digit 0] ⟨E, 0, y⟩ = some ⟨E, 0, false⟩ := by
      show (readGlyph _ _).bind _ = _
      rw [readGlyph_digit hroom (by decide), if_pos rfl]
      rfl
    rw [if_pos rfl, readGlyphs_append _ hread, hdigit, Bool.not_true, Bool.and_false]

/-- **The places with units** give their cells. -/
theorem readGlyphs_readUpper (ps : List (ℕ × Glyph)) : ∀ {E : List (ℤ × ℤ)} (zero y : Bool),
    (∀ p ∈ ps, p.1 < 10 ∧ 10 ≤ number p.2) → E.length + ps.length ≤ 32 →
      ∃ y', readGlyphs (readUpper zero ps) ⟨E, 0, y⟩ = some ⟨E ++ cellsOf ps, 0, y'⟩ := by
  induction ps with
  | nil =>
    intro E zero y _ _
    refine ⟨y, ?_⟩
    rw [show cellsOf [] = [] from rfl, append_nil]
    rfl
  | cons p ps ih =>
    intro E zero y hps hroom
    obtain ⟨⟨hd, hunit⟩, hps⟩ := forall_mem_cons.mp hps
    rw [length_cons] at hroom
    unfold readUpper
    by_cases h : p.1 = 0
    · -- nothing is written for a zero, but the next digit has one in front of it
      rw [if_pos h, cellsOf_zero p h]
      exact ih true y hps (by omega)
    have hlen : (E ++ [((p.1 : ℤ), (number p.2 : ℤ))]).length + ps.length ≤ 32 := by
      rw [length_append, length_singleton]
      omega
    obtain ⟨y', hrest⟩ := ih false true hps hlen
    have hunit : readGlyphs [p.2] ⟨E, p.1, y && !zero⟩
        = some ⟨E ++ [((p.1 : ℤ), (number p.2 : ℤ))], 0, true⟩ := by
      show (readGlyph _ _).bind _ = _
      rw [readGlyph_unit (by omega) _ hunit]
      rfl
    have hfree : E.length < 32 := by omega
    have hcell := readGlyphs_append [p.2] (readGlyphs_digit (y := y) hfree hd h zero)
    rw [hunit, append_assoc, singleton_append] at hcell
    refine ⟨y', ?_⟩
    rw [if_neg h, readGlyphs_append _ hcell, hrest, cellsOf_digit p h, append_assoc]
    rfl

/-- The last digit of a group, if it is written. -/
theorem readGlyphs_readLast (hroom : E.length < 32) (hd : d < 10) :
    ∃ y', readGlyphs (readLast zero d) ⟨E, 0, y⟩ = some ⟨E, d, y'⟩
      ∧ (d ≠ 0 → zero = true → y' = false) := by
  unfold readLast
  by_cases h : d = 0
  · rw [if_pos h, h]
    exact ⟨y, rfl, fun h0 => (h0 rfl).elim⟩
  rw [if_neg h]
  refine ⟨y && !zero, readGlyphs_digit hroom hd h zero, ?_⟩
  intro _ hzero
  rw [hzero, Bool.not_true, Bool.and_false]

/-- The upper three digits and their units. -/
theorem upper_units (g : ℕ) : ∀ p ∈ upper g, p.1 < 10 ∧ 10 ≤ number p.2 := by
  apply forall_upper (P := fun unit => 10 ≤ number unit)
  intro unit hunit
  cases unit with
  | digit d => exact (hunit d rfl).elim
  | ten => decide
  | hundred => decide
  | thousand => decide
  | tenThousand => decide
  | hundredMillion => decide

/-- The tens are the last cell. -/
theorem groupCells_tens (h : g / 10 % 10 ≠ 0) : ∃ front x, groupCells g = front ++ [(x, 10)] := by
  refine ⟨cellsOf [(g / 1000 % 10, .thousand), (g / 100 % 10, .hundred)],
    ((g / 10 % 10 : ℕ) : ℤ), ?_⟩
  have htens : cellsOf [(g / 10 % 10, .ten)] = [(((g / 10 % 10 : ℕ) : ℤ), 10)] :=
    cellsOf_digit _ h
  rw [← htens]
  unfold groupCells cellsOf
  rw [← map_append, ← filter_append]
  rfl

/-- **A level** gives its group, and its last digit waits.  That digit does not get the
unit below the cell in front of it: there is a zero between them, or that cell is of
tens, or there is no cell. -/
theorem readGlyphs_level (started skipped : Bool) (g : ℕ) (hroom : E.length ≤ 28) :
    ∃ y', readGlyphs (level started skipped g) ⟨E, 0, y⟩ = some ⟨E ++ groupCells g, (g % 10 : ℕ), y'⟩
      ∧ (g % 10 ≠ 0 → (started = false → E = []) → E ++ groupCells g ≠ [] →
        y' = false ∨ ∃ front x, E ++ groupCells g = front ++ [(x, 10)]) := by
  unfold level
  generalize hps : (if started then upper g else (upper g).dropWhile fun p => p.1 = 0) = ps
  have hcells : cellsOf ps = groupCells g := by
    subst hps
    cases started with
    | false => exact cellsOf_dropWhile (upper g)
    | true => rfl
  have hsub : ps.Sublist (upper g) := by
    subst hps
    cases started with
    | false => exact dropWhile_sublist _
    | true => exact List.Sublist.refl _
  have hlen : ps.length ≤ 3 := hsub.length_le
  obtain ⟨y₁, hupper⟩ := readGlyphs_readUpper ps (started && skipped) y
    (fun p hp => upper_units g p (hsub.subset hp)) (by omega : E.length + ps.length ≤ 32)
  have hcellsLen := length_cellsOf ps
  have hfree : (E ++ cellsOf ps).length < 32 := by
    rw [length_append]
    omega
  obtain ⟨y', hlast, hzero⟩ := @readGlyphs_readLast (E ++ cellsOf ps) y₁
    (zeroBehind (started && skipped) ps) _ hfree (Nat.mod_lt g (by decide : 0 < 10))
  rw [hcells] at hupper hlast
  refine ⟨y', ?_, ?_⟩
  · rw [readGlyphs_append _ hupper]
    exact hlast
  · intro hdigit hstart hne
    by_cases htens : g / 10 % 10 = 0
    · -- the tens are zero: the zero is read, unless nothing stands in front of the digit
      have hbehind : ∀ zero, zeroBehind zero (upper g) = true := fun _ => decide_eq_true htens
      apply Or.inl
      apply hzero hdigit
      subst hps
      cases started with
      | true => exact hbehind _
      | false =>
        rcases zeroBehind_dropWhile (upper g) (false && skipped) false with hnil | hsame
        · refine (hne ?_).elim
          have hnone : groupCells g = [] := by
            rw [← hcells]
            exact congrArg cellsOf hnil
          rw [hstart rfl, hnone]
          rfl
        · exact hsame.trans (hbehind false)
    · obtain ⟨front, x, hfront⟩ := groupCells_tens htens
      apply Or.inr
      refine ⟨E ++ front, x, ?_⟩
      rw [hfront, append_assoc]

/-- A level with its unit. -/
theorem readGlyphs_levelCells (started : Bool) (g : ℕ) {unit : Glyph} (hunit : 10 ≤ number unit)
    (hroom : E.length ≤ 28) :
    ∃ y', readGlyphs (if g = 0 then [] else level started false g ++ [unit]) ⟨E, 0, y⟩
      = some ⟨E ++ levelCells g (number unit), 0, y'⟩ := by
  unfold levelCells
  by_cases h : g = 0
  · rw [if_pos h, if_pos h, append_nil]
    exact ⟨y, rfl⟩
  have hlen : (groupCells g).length ≤ 3 := length_cellsOf (upper g)
  have hfree : (E ++ groupCells g).length < 32 := by
    rw [length_append]
    omega
  obtain ⟨y', hlevel, -⟩ := readGlyphs_level (y := y) started false g hroom
  refine ⟨true, ?_⟩
  rw [if_neg h, if_neg h, readGlyphs_append _ hlevel]
  show (readGlyph _ _).bind _ = _
  rw [readGlyph_unit hfree _ hunit, append_assoc]
  rfl

/-- A level has four cells at most. -/
theorem length_levelCells (g : ℕ) (unit : ℤ) : (levelCells g unit).length ≤ 4 := by
  have hlen : (groupCells g).length ≤ 3 := length_cellsOf (upper g)
  unfold levelCells
  split
  · exact Nat.zero_le 4
  · rw [length_append, length_singleton]
    omega

/-- **A numeral** gives its cells, and its last digit waits. -/
theorem read_numeral (n : ℕ) :
    ∃ y, readGlyphs (numeral n) ⟨[], 0, false⟩ = some ⟨numeralCells n, (n % 10 : ℕ), y⟩
      ∧ (((n % 10 : ℕ) : ℤ) ≠ 0 → numeralCells n ≠ [] →
        y = false ∨ ∃ front x, numeralCells n = front ++ [(x, 10)]) := by
  have hfirst := length_levelCells (hundredMillions n) 14
  have hsecond := length_levelCells (tenThousands n) 13
  have hroom : (levelCells (hundredMillions n) 14 ++ levelCells (tenThousands n) 13).length
      ≤ 28 := by
    rw [length_append]
    omega
  obtain ⟨y₁, h₁⟩ := readGlyphs_levelCells (E := []) (y := false) false (hundredMillions n)
    (by decide : 10 ≤ number .hundredMillion) (by decide)
  obtain ⟨y₂, h₂⟩ := readGlyphs_levelCells (y := y₁) (hundredMillions n ≠ 0) (tenThousands n)
    (by decide : 10 ≤ number .tenThousand) (by omega : (levelCells (hundredMillions n) 14).length ≤ 28)
  rw [nil_append, show ((number .hundredMillion : ℕ) : ℤ) = 14 from rfl] at h₁
  unfold numeral numeralCells
  rw [append_assoc, readGlyphs_append _ h₁, readGlyphs_append _ h₂]
  by_cases h : ones n = 0
  · have hdigit : n % 10 = 0 := by
      rw [← ones_mod, h]
    refine ⟨y₂, ?_, fun hne => (hne (by rw [hdigit]; rfl)).elim⟩
    rw [if_pos h, h, hdigit, show groupCells 0 = [] from rfl, append_nil]
    rfl
  obtain ⟨y₃, h₃, hlast⟩ := readGlyphs_level (y := y₂)
    (hundredMillions n ≠ 0 ∨ tenThousands n ≠ 0) (tenThousands n = 0) (ones n) hroom
  rw [ones_mod] at h₃ hlast
  rw [if_neg h]
  refine ⟨y₃, h₃, ?_⟩
  intro hdigit hne
  refine hlast (by exact_mod_cast hdigit) ?_ hne
  intro hstart
  have hzero := of_decide_eq_false hstart
  rw [not_or, not_not, not_not] at hzero
  rw [hzero.1, hzero.2]
  rfl

end Cells

/-! ## §2. What the cells are worth. -/

section Values

variable {c : ℤ × ℤ} {l : List (ℤ × ℤ)} {g n : ℕ} {u : ℤ}

/-- A cell is its digit times its unit. -/
theorem worth_of_pos (h : 0 < c.1) : worth c = unitValue c.2 * c.1 := by
  unfold worth
  rw [if_pos h.ne']

/-- It is worth something. -/
theorem worth_pos (h : 0 < c.1) : 0 < worth c := by
  have hunit := unitValue_pos c.2
  rw [worth_of_pos h]
  exact mul_pos (by omega) h

/-- So is a list that is not empty. -/
theorem total_pos (h : ∀ c ∈ l, 0 < c.1) (hne : l ≠ []) : 0 < total l := by
  cases l with
  | nil => exact (hne rfl).elim
  | cons c l =>
    obtain ⟨hc, hl⟩ := forall_mem_cons.mp h
    exact add_pos_of_pos_of_nonneg (worth_pos hc) (total_nonneg fun d hd => (hl d hd).le)

/-- **Lost cells** make the sum smaller. -/
theorem total_take_lt (h : ∀ c ∈ l, 0 < c.1) {k : ℕ} (hk : k < l.length) : total (l.take k) < total l := by
  have hdrop : 0 < total (l.drop k) := by
    apply total_pos fun c hc => h c (mem_of_mem_drop hc)
    intro hnil
    rw [drop_eq_nil_iff] at hnil
    omega
  calc total (l.take k) < total (l.take k) + total (l.drop k) := lt_add_of_pos_right _ hdrop
    _ = total l := by rw [← total_append, take_append_drop]

/-- What a group of digits is worth. -/
theorem total_cellsOf (ps : List (ℕ × Glyph)) :
    total (cellsOf ps) = (ps.map fun p => unitValue (number p.2) * (p.1 : ℤ)).sum := by
  induction ps with
  | nil => rfl
  | cons p ps ih =>
    rw [map_cons, sum_cons, ← ih]
    by_cases h : p.1 = 0
    · rw [cellsOf_zero p h, h, Nat.cast_zero, mul_zero, zero_add]
    · have hpos : (0 : ℤ) < p.1 := by omega
      rw [cellsOf_digit p h, total_cons, worth_of_pos hpos]

/-- **A group and its last digit** are the level. -/
theorem total_groupCells (h : g < 10 ^ 4) : total (groupCells g) + (g % 10 : ℕ) = g := by
  have htotal : total (groupCells g)
      = 1000 * (g / 1000 % 10 : ℕ) + (100 * (g / 100 % 10 : ℕ) + (10 * (g / 10 % 10 : ℕ) + 0)) :=
    total_cellsOf (upper g)
  omega

/-- The cells of a group. -/
theorem mem_groupCells (h : c ∈ groupCells g) : 0 < c.1 ∧ 10 ≤ c.2 ∧ c.2 ≤ 12 := by
  have hunits : ∀ p ∈ upper g, 10 ≤ number p.2 ∧ number p.2 ≤ 12 := by
    unfold upper
    simp [number]
  obtain ⟨p, hp, rfl⟩ := mem_map.mp h
  obtain ⟨hmem, hdigit⟩ := mem_filter.mp hp
  have hunit := hunits p hmem
  have hne : p.1 ≠ 0 := by simpa using hdigit
  refine ⟨?_, ?_, ?_⟩
  · show (0 : ℤ) < p.1
    omega
  · show (10 : ℤ) ≤ number p.2
    omega
  · show (number p.2 : ℤ) ≤ 12
    omega

/-- Their units fall. -/
theorem descending_groupCells (g : ℕ) : Descending (groupCells g) := by
  have hupper : (upper g).Pairwise fun p q => (number q.2 : ℤ) < number p.2 := by
    unfold upper
    simp [number]
  exact pairwise_map.mpr (hupper.filter _)

/-- The cells of the last level. -/
def onesCells (n : ℕ) : List (ℤ × ℤ) := groupCells (ones n) ++ lastCell ((n % 10 : ℕ) : ℤ)

/-- The cells of the lower four digits. -/
theorem total_onesCells (n : ℕ) : total (onesCells n) = ones n := by
  have hlast : total (lastCell ((n % 10 : ℕ) : ℤ)) = (n % 10 : ℕ) := by
    unfold lastCell
    split
    case isTrue h => rw [h, total_nil]
    case isFalse h =>
      have hpos : (0 : ℤ) < (n % 10 : ℕ) := by omega
      rw [total_cons, total_nil, worth_of_pos hpos, add_zero]
      exact one_mul _
  unfold onesCells
  rw [total_append, hlast, ← ones_mod]
  exact total_groupCells (ones_lt n)

/-- The last digit has no unit. -/
theorem mem_lastCell {d : ℕ} (h : c ∈ lastCell (d : ℤ)) : 0 < c.1 ∧ c.2 = 0 := by
  unfold lastCell at h
  split at h
  case isTrue => cases h
  case isFalse hne =>
    rw [mem_singleton.mp h]
    refine ⟨?_, rfl⟩
    show (0 : ℤ) < d
    omega

/-- What is in the cells of these digits. -/
theorem mem_onesCells (h : c ∈ onesCells n) : 0 < c.1 ∧ c.2 ≤ 12 := by
  rcases mem_append.mp h with hgroup | hlast
  · exact ⟨(mem_groupCells hgroup).1, (mem_groupCells hgroup).2.2⟩
  · obtain ⟨hpos, hunit⟩ := mem_lastCell hlast
    exact ⟨hpos, by omega⟩

/-- Their units fall. -/
theorem descending_onesCells (n : ℕ) : Descending (onesCells n) := by
  apply pairwise_append.mpr
  refine ⟨descending_groupCells _, ?_, ?_⟩
  · unfold lastCell
    split
    · exact List.Pairwise.nil
    · exact pairwise_singleton _ _
  · intro c hc d hd
    have hgroup := mem_groupCells hc
    have hlast := mem_lastCell hd
    omega

/-- A greater unit in front. -/
theorem descending_cons {l : List (ℤ × ℤ)} (hc : ∀ d ∈ l, d.2 < c.2) (hl : Descending l) :
    Descending (c :: l) := pairwise_cons.mpr ⟨hc, hl⟩

/-- A group below 100. -/
theorem groupCells_small (h : g < 100) :
    groupCells g = if g < 10 then [] else [(((g / 10 : ℕ) : ℤ), 10)] := by
  have hthousands : g / 1000 % 10 = 0 := by omega
  have hhundreds : g / 100 % 10 = 0 := by omega
  have htens : g / 10 % 10 = g / 10 := by omega
  unfold groupCells upper
  rw [cellsOf_zero _ hthousands, cellsOf_zero _ hhundreds, htens]
  split
  · rw [cellsOf_zero _ (by show g / 10 = 0; omega)]
    rfl
  · rw [cellsOf_digit _ (by show g / 10 ≠ 0; omega)]
    rfl

end Values

/-! ## §3. What `__num` makes of them. -/

section Groups

variable {a : Units} {R : List (ℤ × ℤ)} {g n : ℕ} {u : ℤ}

/-- **A group in front of a greater unit** is multiplied by it. -/
theorem num_group (hg : g < 10 ^ 4) (h0 : 0 < g) (hu : 12 < u) (hR : ∀ c ∈ R, 0 < c.1 ∧ c.2 < u)
    (hdesc : Descending R) (h : Shows a 0 (groupCells g ++ (((g % 10 : ℕ) : ℤ), u) :: R))
    (hmax : unitValue u * g + total R ≤ INT32_MAX)
    (hn : (groupCells g ++ (((g % 10 : ℕ) : ℤ), u) :: R).length = n) (depth : ℕ) :
    ∃ a', num_ (depth + 2) 0 n a = some (unitValue u * g + total R, a') := by
  have hvalue := total_groupCells hg
  have hpos : (0 : ℤ) < g := by omega
  have htotal : total (((g : ℤ), u) :: R) = unitValue u * g + total R := by
    rw [total_cons, worth_of_pos hpos]
  have hback : ∀ d : ℤ, Descending ((d, u) :: R) :=
    fun d => descending_cons (fun c hc => (hR c hc).2) hdesc
  by_cases hgroup : groupCells g = []
  · -- a single digit: the units already go down
    rw [hgroup, total_nil, zero_add] at hvalue
    rw [hgroup, hvalue, nil_append] at h hn
    refine ⟨a, ?_⟩
    rw [← htotal] at hmax ⊢
    rw [← hn]
    apply num_of_descending h (hback g) _ hmax
    exact forall_mem_cons.mpr ⟨hpos.le, fun c hc => (hR c hc).1.le⟩
  -- the group is collapsed into the cell of `u`
  have hR0 := total_nonneg fun c hc => (hR c hc).1.le
  have hge : (g : ℤ) ≤ unitValue u * g := le_mul_of_one_le_left hpos.le (unitValue_pos u)
  have hnum : ∀ c ∈ groupCells g ++ (((g % 10 : ℕ) : ℤ), u) :: R, 0 ≤ c.1 := by
    rw [forall_mem_append, forall_mem_cons]
    exact ⟨fun c hc => (mem_groupCells hc).1.le, Int.natCast_nonneg _, fun c hc => (hR c hc).1.le⟩
  have hless : ∀ c ∈ groupCells g, c.2 ≤ u := by
    intro c hc
    have hunit := mem_groupCells hc
    omega
  rw [length_append, length_cons] at hn
  have hcollapse := num_collapse h hgroup (descending_groupCells g) hless (hback _) hnum
    (by omega) (by rw [hvalue, htotal]; exact hmax) hn depth
  rw [hvalue, htotal] at hcollapse
  exact hcollapse

/-- **A group behind the hundred millions** loses cells. -/
theorem num_group_behind {hm : ℕ} (hpos : 0 < hm) (hsmall : hm < 100) (h10 : 10 ≤ g)
    (hg : g < 10 ^ 4) (hR : ∀ c ∈ R, 0 < c.1 ∧ c.2 < 13) (hdesc : Descending R)
    (h : Shows a 0 (groupCells hm ++ [(((hm % 10 : ℕ) : ℤ), 14)]
      ++ (groupCells g ++ (((g % 10 : ℕ) : ℤ), 13) :: R)))
    (hmax : 100000000 * hm + (10000 * g + total R) ≤ INT32_MAX)
    (hn : (groupCells hm ++ [(((hm % 10 : ℕ) : ℤ), 14)]
      ++ (groupCells g ++ (((g % 10 : ℕ) : ℤ), 13) :: R)).length = n) (depth : ℕ) :
    ∃ value a', num_ (depth + 2) 0 n a = some (value, a')
      ∧ value < 100000000 * hm + (10000 * g + total R) := by
  have hvalue := total_groupCells hg
  have hhm : (0 : ℤ) < hm := by omega
  have hg0 : (0 : ℤ) < g := by omega
  have hR0 := total_nonneg fun c hc => (hR c hc).1.le
  have hgroup : groupCells g ≠ [] := by
    intro hnil
    rw [hnil, total_nil] at hvalue
    omega
  have hless : ∀ c ∈ groupCells g, c.2 ≤ 13 := by
    intro c hc
    have hunit := mem_groupCells hc
    omega
  have hback : Descending ((((g % 10 : ℕ) : ℤ), 13) :: R) :=
    descending_cons (fun c hc => (hR c hc).2) hdesc
  -- all that would have to be added up
  have hall : ∀ c ∈ ((hm : ℤ), (14 : ℤ)) :: ((g : ℤ), (13 : ℤ)) :: R, 0 < c.1 :=
    forall_mem_cons.mpr ⟨hhm, forall_mem_cons.mpr ⟨hg0, fun c hc => (hR c hc).1⟩⟩
  have htotal : total (((hm : ℤ), (14 : ℤ)) :: ((g : ℤ), (13 : ℤ)) :: R)
      = 100000000 * hm + (10000 * g + total R) := by
    rw [total_cons, total_cons, worth_of_pos hhm, worth_of_pos hg0]
    rfl
  have hcut : ∀ k < R.length + 2, total ((((hm : ℤ), (14 : ℤ)) :: ((g : ℤ), (13 : ℤ)) :: R).take k)
      < 100000000 * hm + (10000 * g + total R) := by
    intro k hk
    rw [← htotal]
    exact total_take_lt hall hk
  have hnumback : ∀ c ∈ groupCells g ++ (((g % 10 : ℕ) : ℤ), 13) :: R, 0 ≤ c.1 := by
    rw [forall_mem_append, forall_mem_cons]
    exact ⟨fun c hc => (mem_groupCells hc).1.le, Int.natCast_nonneg _, fun c hc => (hR c hc).1.le⟩
  rw [length_append, length_append, length_append, length_singleton,
    length_cons] at hn
  rw [groupCells_small hsmall] at h hn
  by_cases hone : hm < 10
  · -- one cell in front: two are lost
    rw [if_pos hone, Nat.mod_eq_of_lt hone, nil_append] at h
    rw [if_pos hone, length_nil] at hn
    have hlost := hcut R.length (by omega)
    obtain ⟨a', hnum⟩ := num_truncates (by rwa [append_assoc]) hgroup
      (descending_groupCells g) hless (by decide : (13 : ℤ) < 14) hback
      (by rw [append_assoc, singleton_append]
          exact forall_mem_cons.mpr ⟨hhm.le, hnumback⟩)
      (by omega) (by rw [hvalue]; omega) (by omega : 1 + (groupCells g).length + (R.length + 1) = n)
      depth
    rw [hvalue] at hnum
    exact ⟨_, a', hnum, hlost⟩
  -- a group of two cells in front: four are lost
  have hten : (0 : ℤ) < (hm / 10 : ℕ) := by omega
  have hsum : total [(((hm / 10 : ℕ) : ℤ), (10 : ℤ))] + ((hm % 10 : ℕ) : ℤ) = hm := by
    rw [total_cons, total_nil, worth_of_pos hten]
    show 10 * ((hm / 10 : ℕ) : ℤ) + 0 + ((hm % 10 : ℕ) : ℤ) = hm
    omega
  rw [if_neg hone, singleton_append] at h
  rw [if_neg hone, length_singleton] at hn
  have hlost := hcut (R.length - 2) (by omega)
  obtain ⟨a', hnum⟩ := num_truncates_group (by rwa [append_assoc]) hgroup
    (descending_groupCells g) hless (by decide : (13 : ℤ) < 14) (by decide : (10 : ℤ) ≤ 14) hback
    (by rw [append_assoc, forall_mem_append, forall_mem_cons,
          forall_mem_singleton]
        exact ⟨⟨hten.le, Int.natCast_nonneg _⟩, hnumback⟩)
    (by omega) (by rw [hsum]; omega) (by rw [hsum, hvalue]; omega)
    (by omega : 2 + (groupCells g).length + (R.length + 1) = n) depth
  rw [hsum, hvalue] at hnum
  exact ⟨_, a', hnum, hlost⟩

end Groups

/-! ## §4. The number that is read. -/

section Result

variable {a : Units} {g n : ℕ} {u : ℤ}

/-- All cells of a numeral. -/
def allCells (n : ℕ) : List (ℤ × ℤ) := numeralCells n ++ lastCell ((n % 10 : ℕ) : ℤ)

/-- The cells of a numeral, level by level. -/
theorem allCells_eq (n : ℕ) : allCells n
    = levelCells (hundredMillions n) 14 ++ (levelCells (tenThousands n) 13 ++ onesCells n) := by
  unfold allCells numeralCells onesCells
  rw [append_assoc, append_assoc]

/-- An empty level. -/
theorem levelCells_zero (u : ℤ) : levelCells 0 u = [] := rfl

/-- Another level. -/
theorem levelCells_pos (h : 0 < g) : levelCells g u = groupCells g ++ [(((g % 10 : ℕ) : ℤ), u)] :=
  if_neg h.ne'

/-- A level of one digit. -/
theorem levelCells_digit (h0 : 0 < g) (h : g < 10) : levelCells g u = [((g : ℤ), u)] := by
  rw [levelCells_pos h0, groupCells_small (by omega), if_pos h, Nat.mod_eq_of_lt h]
  rfl

/-- Only the empty one has no cells. -/
theorem levelCells_nil (h : levelCells g u = []) : g = 0 := by
  by_contra hg
  rw [levelCells_pos (Nat.pos_of_ne_zero hg)] at h
  exact append_ne_nil_of_right_ne_nil _ (cons_ne_nil _ _) h

/-- Only one digit leaves none. -/
theorem numeralCells_nil (h : numeralCells n = []) : n = n % 10 := by
  obtain ⟨hlevels, hones⟩ := append_eq_nil_iff.mp h
  obtain ⟨hhm, htt⟩ := append_eq_nil_iff.mp hlevels
  have hvalue := levels_value n
  have hgroup := total_groupCells (ones_lt n)
  rw [levelCells_nil hhm, levelCells_nil htt] at hvalue
  rw [hones, total_nil, ones_mod] at hgroup
  omega

/-- The cells behind the hundred millions, if the ten thousands are one digit. -/
theorem tail_of_digit (h : tenThousands n < 10) :
    (∀ c ∈ levelCells (tenThousands n) 13 ++ onesCells n, 0 < c.1 ∧ c.2 < 14)
      ∧ Descending (levelCells (tenThousands n) 13 ++ onesCells n)
      ∧ total (levelCells (tenThousands n) 13 ++ onesCells n) = 10000 * tenThousands n + ones n := by
  have hones := total_onesCells n
  have hdesc := descending_onesCells n
  rcases Nat.eq_zero_or_pos (tenThousands n) with hten | hten
  · rw [hten, levelCells_zero, nil_append]
    refine ⟨fun c hc => ?_, hdesc, by omega⟩
    have hcell := mem_onesCells hc
    omega
  have hpos : (0 : ℤ) < tenThousands n := by omega
  rw [levelCells_digit hten h, singleton_append]
  refine ⟨forall_mem_cons.mpr ⟨⟨hpos, (by decide : (13 : ℤ) < 14)⟩, fun c hc => ?_⟩,
    descending_cons (fun c hc => ?_) hdesc, ?_⟩
  · have hcell := mem_onesCells hc
    omega
  · have hcell := mem_onesCells hc
    show c.2 < 13
    omega
  · rw [total_cons, worth_of_pos hpos, hones]
    rfl

/-- **What `__num` makes of the cells**: the number, unless the ten thousands are a group
behind the hundred millions. -/
theorem num_numeral (h : n < 2 ^ 31) (hshows : Shows a 0 (allCells n)) (depth : ℕ) :
    ∃ value a', num_ (depth + 2) 0 (allCells n).length a = some (value, a')
      ∧ (n < 10 ^ 8 ∨ tenThousands n < 10 → value = n)
      ∧ (¬ (n < 10 ^ 8 ∨ tenThousands n < 10) → value < n) := by
  have hlevels := levels_value n
  have hmax : (n : ℤ) ≤ INT32_MAX := by
    unfold INT32_MAX
    omega
  have hzero : hundredMillions n = 0 ↔ n < 10 ^ 8 := by
    unfold hundredMillions
    omega
  have hsmall : hundredMillions n < 100 := by
    omega
  have htt := tenThousands_lt n
  have hones := total_onesCells n
  have honesCells : ∀ c ∈ onesCells n, 0 < c.1 ∧ c.2 < 13 := by
    intro c hc
    have hcell := mem_onesCells hc
    omega
  have hdesc := descending_onesCells n
  rw [allCells_eq] at hshows ⊢
  rcases Nat.eq_zero_or_pos (hundredMillions n) with hhm | hhm
  · -- the ten thousands are the first level, or there is only the last one
    have hmeets := Or.inl (b := tenThousands n < 10) (hzero.mp hhm)
    rw [hhm, levelCells_zero, nil_append] at hshows ⊢
    rcases Nat.eq_zero_or_pos (tenThousands n) with hten | hten
    · have hlevel : levelCells (tenThousands n) 13 = [] := by
        rw [hten, levelCells_zero]
      rw [hlevel, nil_append] at hshows ⊢
      refine ⟨_, a, num_of_descending hshows hdesc (fun c hc => (honesCells c hc).1.le) ?_ _, ?_,
        fun hno => (hno hmeets).elim⟩
      · rw [hones]
        omega
      · intro _
        omega
    · rw [levelCells_pos hten, append_assoc, singleton_append] at hshows ⊢
      obtain ⟨a', hnum⟩ := num_group htt hten (by decide) honesCells hdesc hshows
        (by show 10000 * (tenThousands n : ℤ) + _ ≤ _; omega) rfl depth
      refine ⟨_, a', hnum, ?_, fun hno => (hno hmeets).elim⟩
      intro _
      show 10000 * (tenThousands n : ℤ) + _ = _
      omega
  · by_cases hdigit : tenThousands n < 10
    · -- the ten thousands are at most one cell
      obtain ⟨htailCells, htailDesc, htailTotal⟩ := tail_of_digit hdigit
      rw [levelCells_pos hhm, append_assoc, singleton_append] at hshows ⊢
      obtain ⟨a', hnum⟩ := num_group (by omega) hhm (by decide) htailCells htailDesc hshows
        (by show 100000000 * (hundredMillions n : ℤ) + _ ≤ _; omega) rfl depth
      refine ⟨_, a', hnum, ?_, fun hno => (hno (Or.inr hdigit)).elim⟩
      intro _
      show 100000000 * (hundredMillions n : ℤ) + _ = _
      omega
    -- the slip: a group behind the hundred millions
    rw [levelCells_pos hhm, levelCells_pos (by omega),
      append_assoc (groupCells _) [_] (onesCells n), singleton_append] at hshows ⊢
    obtain ⟨value, a', hnum, hless⟩ := num_group_behind hhm hsmall (by omega) htt honesCells hdesc
      hshows (by omega) rfl depth
    refine ⟨value, a', hnum, ?_, fun _ => by omega⟩
    rintro (hlt | hlt)
    · exact (hhm.ne' (hzero.mpr hlt)).elim
    · exact (hdigit hlt).elim

/-- A numeral has letters only. -/
theorem isLetter_numeral (n : ℕ) : ∀ g ∈ numeral n, IsLetter g := by
  apply forall_numeral (P := IsLetter)
  · intro d hd
    exact hd
  · intro g hg
    cases g with
    | digit d => exact (hg d rfl).elim
    | ten => trivial
    | hundred => trivial
    | thousand => trivial
    | tenThousand => trivial
    | hundredMillion => trivial

/-- **The value of a numeral**. -/
theorem q_to_num_numeral (h0 : 0 < n) (h : n < 2 ^ 31) : ∃ value, q_to_num (utf8 (numeral n)) = some value
      ∧ (n < 10 ^ 8 ∨ tenThousands n < 10 → value = n)
      ∧ (¬ (n < 10 ^ 8 ∨ tenThousands n < 10) → value < n) := by
  obtain ⟨y, hread, hlast⟩ := read_numeral n
  have hne : numeral n ≠ [] := by
    intro hnil
    rw [hnil] at hread
    have hstate := Option.some.inj hread
    have hdigit : ((n % 10 : ℕ) : ℤ) = 0 := (congrArg Read.digits hstate).symm
    have hsmall := numeralCells_nil (congrArg Read.cells hstate).symm
    omega
  have hroom : (numeralCells n).length < 32 := by
    have hfirst := length_levelCells (hundredMillions n) 14
    have hsecond := length_levelCells (tenThousands n) 13
    have hthird : (groupCells (ones n)).length ≤ 3 := length_cellsOf (upper (ones n))
    unfold numeralCells
    rw [length_append, length_append]
    omega
  have hresult := q_to_num_read (isLetter_numeral n) hne hread hroom hlast
  by_cases hcells : numeralCells n = []
  · -- a digit alone is returned as it has been read
    have hdigit := numeralCells_nil hcells
    rw [if_pos hcells, ← hdigit] at hresult
    exact ⟨n, hresult, fun _ => rfl, fun hno => (hno (Or.inl (by omega))).elim⟩
  have hlen := length_pos_iff.mpr hcells
  obtain ⟨depth, hdepth⟩ : ∃ depth, (allCells n).length + 1 = depth + 2 := by
    refine ⟨(allCells n).length - 1, ?_⟩
    unfold allCells
    rw [length_append]
    omega
  obtain ⟨value, a', hnum, hvalue⟩ := num_numeral h (shows_arrays ⟨numeralCells n, _, y⟩) depth
  rw [if_neg hcells] at hresult
  refine ⟨value, ?_, hvalue⟩
  rw [hresult]
  show (num_ ((allCells n).length + 1) 0 (allCells n).length _).map _ = _
  rw [hdepth, hnum]
  rfl

/-- **When a numeral is read as its number**: if there are no hundred millions, or the ten
thousands behind them are less than ten. -/
theorem q_to_num_meets_iff (h0 : 0 < n) (h : n < 2 ^ 31) :
    q_to_num (utf8 (numeral n)) = some (n : ℤ) ↔ n < 10 ^ 8 ∨ tenThousands n < 10 := by
  obtain ⟨value, hvalue, hright, hless⟩ := q_to_num_numeral h0 h
  rw [hvalue]
  constructor
  · intro hsame
    by_contra hno
    have hlost := hless hno
    rw [Option.some.inj hsame] at hlost
    exact lt_irrefl _ hlost
  · intro hmeets
    rw [hright hmeets]

end Result

/-- A number below a hundred million. -/
theorem q_to_num_meets_105000 :
    q_to_num (utf8 (numeral 105000)) = some 105000 ↔ 105000 < 10 ^ 8 ∨ tenThousands 105000 < 10 :=
  q_to_num_meets_iff (by decide) (by decide)

/-- `一亿零一十万` is read as 0. -/
theorem q_to_num_zero : q_to_num (utf8 (numeral 100100000)) = some 0
    ∧ ¬ q_to_num (utf8 (numeral 100100000)) = some 100100000 := by
  decide

end QToNum

end KalavaPir.Common
