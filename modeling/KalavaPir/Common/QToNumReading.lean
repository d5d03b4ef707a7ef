/-
  KalavaPir.Common.QToNumReading — how `q_to_num` reads a text, `common/qfunc.h`.

  A letter is three bytes.  The digits of a text wait for the unit behind them, a unit
  closes the cell, and what is left at the end is a cell without a unit; the arrays hold
  the cells that have been read, and zeros.
-/
import KalavaPir.Framework.UnitNumerals
import KalavaPir.Common.QToNum
import Mathlib.Data.List.GetD
import Mathlib.Tactic.IntervalCases

namespace KalavaPir.Common

open KalavaPir.Framework List
open KalavaPir.Framework.UnitNumeral

namespace QToNum

/-! ## §1. Letters. -/

/-- `零一二三四五六七八九`. -/
def digitLetters : List (List UInt8) :=
  [[233, 155, 182], [228, 184, 128], [228, 186, 140], [228, 184, 137], [229, 155, 155],
    [228, 186, 148], [229, 133, 173], [228, 184, 131], [229, 133, 171], [228, 185, 157]]

/-- `十`, `百`, `千`, `万` and `亿` for the units. -/
def letter : Glyph → List UInt8
  | .digit d => digitLetters.getD d []
  | .ten => [229, 141, 129]
  | .hundred => [231, 153, 190]
  | .thousand => [229, 141, 131]
  | .tenThousand => [228, 184, 135]
  | .hundredMillion => [228, 186, 191]

/-- How glyphs are written. -/
def utf8 (gs : List Glyph) : List UInt8 := gs.flatMap letter

/-- The number that stands for a letter. -/
def number : Glyph → ℕ
  | .digit d => d
  | .ten => 10
  | .hundred => 11
  | .thousand => 12
  | .tenThousand => 13
  | .hundredMillion => 14

/-- A letter that there is. -/
def IsLetter : Glyph → Prop
  | .digit d => d < 10
  | _ => True

theorem readLetter_append {l : List UInt8} (h : l.length = 3) (rest : List UInt8) :
    readLetter (l ++ rest) = readLetter l := by
  have htake : (l ++ rest).take 3 = l.take 3 := take_append_of_le_length (le_of_eq h.symm)
  cases l with
  | nil => cases h
  | cons c cs =>
    unfold readLetter
    rw [htake]
    rfl

theorem letter_bytes {g : Glyph} (h : IsLetter g) : readLetter (letter g) = some (number g, 3)
    ∧ (letter g).length = 3 ∧ skipSeparators (letter g) = letter g := by
  cases g with
  | digit d =>
    have hd : d < 10 := h
    interval_cases d <;> decide
  | ten => decide
  | hundred => decide
  | thousand => decide
  | tenThousand => decide
  | hundredMillion => decide

theorem letter_spec {g : Glyph} (h : IsLetter g) (rest : List UInt8) :
    readLetter (letter g ++ rest) = some (number g, 3) ∧ (letter g).length = 3
      ∧ skipSeparators (letter g ++ rest) = letter g ++ rest := by
  obtain ⟨hread, hlen, hskip⟩ := letter_bytes h
  refine ⟨?_, hlen, ?_⟩
  · rw [readLetter_append hlen, hread]
  · have hne : letter g ≠ [] := by
      intro hnil
      rw [hnil] at hlen
      cases hlen
    unfold skipSeparators at hskip ⊢
    rw [dropWhile_append, hskip, if_neg (by simpa using hne)]

/-! ## §2. The cells of a text. -/

/-- What has been read: the cells, the digits behind them, and `y`. -/
structure Read where
  cells : List (ℤ × ℤ)
  digits : ℤ
  y : Bool

/-- The arrays then. -/
def Read.arrays (s : Read) : Units where
  num := fun i => ((s.cells ++ [(s.digits, 0)]).getD i (0, 0)).1
  pos := fun i => ((s.cells ++ [(s.digits, 0)]).getD i (0, 0)).2

/-- The variables of the loop. -/
def Read.state (s : Read) (rest : List UInt8) : ReadState :=
  ⟨rest, s.cells.length, s.y, s.arrays⟩

/-- A letter, while there is room. -/
def readGlyph (s : Read) (g : Glyph) : Option Read :=
  if 32 ≤ s.cells.length then none
  else if 10 ≤ number g then some ⟨s.cells ++ [(s.digits, (number g : ℤ))], 0, true⟩
  else (int32 (s.digits * 10 + number g)).map fun digits =>
    ⟨s.cells, digits, if number g = 0 then false else s.y⟩

/-- The loop, glyph by glyph. -/
def readGlyphs : List Glyph → Read → Option Read
  | [], s => some s
  | g :: gs, s => (readGlyph s g).bind (readGlyphs gs)

section Reading

variable {s s' : Read} {g : Glyph} {gs : List Glyph}

theorem arrays_digits (s : Read) : s.arrays.num s.cells.length = s.digits
    ∧ s.arrays.pos s.cells.length = 0 := by
  simp [Read.arrays]

theorem getD_update (l : List (ℤ × ℤ)) (c d : ℤ × ℤ) (i : ℕ) :
    (l ++ [d]).getD i (0, 0) = if i = l.length then d else (l ++ [c]).getD i (0, 0) := by
  rcases lt_trichotomy i l.length with h | rfl | h
  · rw [if_neg (by omega), getD_append _ _ _ _ h, getD_append _ _ _ _ h]
  · rw [if_pos rfl]
    simp
  · rw [if_neg (by omega), getD_eq_default, getD_eq_default]
    · rw [length_append, length_singleton]
      omega
    · rw [length_append, length_singleton]
      omega

theorem getD_append_zero (l : List (ℤ × ℤ)) (i : ℕ) : (l ++ [(0, 0)]).getD i (0, 0) = l.getD i (0, 0) := by
  by_cases h : i < l.length
  · rw [getD_append _ _ _ _ h]
  · rw [getD_append_right _ _ _ _ (by omega), getD_eq_default l _ (by omega)]
    cases i - l.length <;> rfl

theorem arrays_putDigits (s : Read) (digits : ℤ) (y : Bool) : Read.arrays ⟨s.cells, digits, y⟩
      = ⟨Function.update s.arrays.num s.cells.length digits, s.arrays.pos⟩ := by
  apply congrArg₂ Units.mk
  · funext i
    rw [getD_update s.cells (s.digits, 0) (digits, 0) i, Function.update_apply]
    split <;> rfl
  · funext i
    rw [getD_update s.cells (s.digits, 0) (digits, 0) i]
    split
    case isTrue h =>
      rw [h]
      exact (arrays_digits s).2.symm
    case isFalse => rfl

theorem arrays_putUnit (s : Read) (unit : ℤ) : Read.arrays ⟨s.cells ++ [(s.digits, unit)], 0, true⟩
      = ⟨s.arrays.num, Function.update s.arrays.pos s.cells.length unit⟩ := by
  apply congrArg₂ Units.mk
  · funext i
    rw [getD_append_zero, getD_update s.cells (s.digits, 0) (s.digits, unit) i]
    split
    case isTrue h =>
      rw [h]
      exact (arrays_digits s).1.symm
    case isFalse => rfl
  · funext i
    rw [getD_append_zero, getD_update s.cells (s.digits, 0) (s.digits, unit) i,
      Function.update_apply]
    split <;> rfl

theorem putLetter_state (hroom : s.cells.length < 32) (rest : List UInt8) :
    putLetter (number g) (s.state rest) = (readGlyph s g).map fun s => s.state rest := by
  unfold putLetter readGlyph
  rw [if_neg (not_le.mpr hroom)]
  by_cases hunit : 10 ≤ number g
  · rw [if_pos hunit, if_pos hunit]
    show some (ReadState.mk _ _ _ _) = some (ReadState.mk _ _ _ _)
    rw [arrays_putUnit, length_append]
    rfl
  rw [if_neg hunit, if_neg hunit]
  show (int32 (s.arrays.num s.cells.length * 10 + number g)).map _ = _
  rw [(arrays_digits s).1, Option.map_map]
  congr 1
  funext digits
  show ReadState.mk _ _ _ _ = ReadState.mk _ _ _ _
  rw [arrays_putDigits]
  rfl

theorem utf8_cons (g : Glyph) (gs : List Glyph) : utf8 (g :: gs) = letter g ++ utf8 gs :=
  flatMap_cons

theorem skipSeparators_utf8 (h : ∀ g ∈ gs, IsLetter g) : skipSeparators (utf8 gs) = utf8 gs := by
  cases gs with
  | nil => rfl
  | cons g gs =>
    exact (letter_spec (h g mem_cons_self) (utf8 gs)).2.2

theorem readRound_some {t : ReadState} {x k : ℕ} (hroom : t.len < 32) (hne : t.rest ≠ [])
    (hread : readLetter t.rest = some (x, k)) :
    readRound t = (putLetter x { t with rest := t.rest.drop k }).map fun t =>
      .again { t with rest := skipSeparators t.rest } := by
  unfold readRound
  rw [if_pos ⟨hroom, hne⟩, hread]

/-- A round reads a letter. -/
theorem readRound_letter (h : ∀ d ∈ g :: gs, IsLetter d) (hs : readGlyph s g = some s') :
    readRound (s.state (utf8 (g :: gs))) = some (.again (s'.state (utf8 gs))) := by
  obtain ⟨hg, hgs⟩ := forall_mem_cons.mp h
  obtain ⟨hread, hlen, -⟩ := letter_spec hg (utf8 gs)
  have hroom : s.cells.length < 32 := by
    by_contra hfull
    rw [readGlyph, if_pos (not_lt.mp hfull)] at hs
    cases hs
  have hne : letter g ++ utf8 gs ≠ [] := by
    intro hnil
    rw [(append_eq_nil_iff.mp hnil).1] at hlen
    cases hlen
  rw [utf8_cons, readRound_some hroom hne hread]
  show (putLetter (number g) (s.state ((letter g ++ utf8 gs).drop 3))).map _ = _
  rw [putLetter_state hroom, hs, drop_left' hlen]
  show some (LoopStep.again (Read.state s' (skipSeparators (utf8 gs)))) = _
  rw [skipSeparators_utf8 hgs]

/-- **The loop reads a text**. -/
theorem loop_reads (gs : List Glyph) : ∀ {s s' : Read} {fuel : ℕ}, (∀ g ∈ gs, IsLetter g) →
    readGlyphs gs s = some s' → gs.length < fuel →
      loop readRound fuel (s.state (utf8 gs)) = some (s'.state []) := by
  induction gs with
  | nil =>
    intro s s' fuel _ hs hfuel
    cases hs
    obtain ⟨k, rfl⟩ : ∃ k, fuel = k + 1 := ⟨fuel - 1, by simp at hfuel; omega⟩
    apply loop_done
    unfold readRound
    rw [if_neg fun h => h.2 rfl]
    rfl
  | cons g gs ih =>
    intro s s' fuel hletters hs hfuel
    obtain ⟨s₁, hg, hgs⟩ := Option.bind_eq_some_iff.mp hs
    obtain ⟨k, rfl⟩ : ∃ k, fuel = k + 1 := ⟨fuel - 1, by omega⟩
    rw [loop_again (readRound_letter hletters hg)]
    rw [length_cons] at hfuel
    exact ih (forall_mem_cons.mp hletters).2 hgs (by omega)

end Reading

/-- The last cell, of digits without a unit. -/
def lastCell (digits : ℤ) : List (ℤ × ℤ) := if digits = 0 then [] else [(digits, 0)]

theorem shows_arrays (s : Read) : Shows s.arrays 0 (s.cells ++ lastCell s.digits) := by
  have hall : Shows s.arrays 0 (s.cells ++ [(s.digits, 0)]) := by
    intro k c hc
    unfold Read.arrays
    simp only [Nat.zero_add, getD_eq_getElem?_getD, hc, Option.getD_some]
    exact ⟨trivial, trivial⟩
  unfold lastCell
  split
  · rw [append_nil]
    exact (shows_append.mp hall).1
  · exact hall

theorem length_utf8 {gs : List Glyph} (h : ∀ g ∈ gs, IsLetter g) : (utf8 gs).length = 3 * gs.length := by
  induction gs with
  | nil => rfl
  | cons g gs ih =>
    obtain ⟨hg, hgs⟩ := forall_mem_cons.mp h
    rw [utf8_cons, length_append, (letter_spec hg []).2.1, ih hgs, length_cons]
    omega

theorem state_start (src : List UInt8) :
    (⟨src, 0, false, ⟨fun _ => 0, fun _ => 0⟩⟩ : ReadState) = Read.state ⟨[], 0, false⟩ src := by
  have hzero : ∀ i, ([((0 : ℤ), (0 : ℤ))]).getD i (0, 0) = (0, 0) := by
    intro i
    cases i <;> rfl
  unfold Read.state Read.arrays
  simp only [nil_append, hzero]
  rfl

section Result

variable {gs : List Glyph} {s : Read}

theorem arrays_pos_last {front : List (ℤ × ℤ)} {d : ℤ} (h : s.cells = front ++ [(d, 10)]) :
    s.arrays.pos (s.cells.length - 1) = 10 := by
  unfold Read.arrays
  rw [h]
  simp

/-- **The last cell** is closed without a unit, if there is a zero in front of its digit,
or if the cell before is of tens. -/
theorem closeLast_state (rest : List UInt8)
    (hlast : s.digits ≠ 0 → s.y = false ∨ ∃ front d, s.cells = front ++ [(d, 10)]) :
    closeLast (s.state rest) = ⟨rest, (s.cells ++ lastCell s.digits).length, s.y, s.arrays⟩ := by
  unfold closeLast lastCell
  show (if s.arrays.num s.cells.length ≠ 0 then _ else _) = _
  rw [(arrays_digits s).1]
  by_cases hdigits : s.digits = 0
  · rw [if_neg (not_not.mpr hdigits), if_pos hdigits, append_nil]
    rfl
  have hkeep : ¬ (s.y = true ∧ s.arrays.pos s.cells.length = 0
      ∧ 11 ≤ s.arrays.pos (s.cells.length - 1)) := by
    intro ⟨hy, _, hunit⟩
    rcases hlast hdigits with hno | ⟨front, d, hfront⟩
    · rw [hno] at hy
      cases hy
    · rw [arrays_pos_last hfront] at hunit
      exact absurd hunit (by decide)
  rw [if_pos hdigits, if_neg hdigits, length_append]
  show ReadState.mk rest (s.cells.length + 1) s.y ⟨s.arrays.num,
    if s.y = true ∧ s.arrays.pos s.cells.length = 0 ∧ 11 ≤ s.arrays.pos (s.cells.length - 1)
      then _ else _⟩ = _
  rw [if_neg hkeep]
  rfl

/-- **After a text**: a single digit, or what is in the cells. -/
theorem q_to_num_read (hletters : ∀ g ∈ gs, IsLetter g) (hne : gs ≠ [])
    (hs : readGlyphs gs ⟨[], 0, false⟩ = some s) (hroom : s.cells.length < 32)
    (hlast : s.digits ≠ 0 → s.cells ≠ [] → s.y = false ∨ ∃ front d, s.cells = front ++ [(d, 10)]) :
    q_to_num (utf8 gs) =
      if s.cells = [] then some s.digits
      else (num_ ((s.cells ++ lastCell s.digits).length + 1) 0
        (s.cells ++ lastCell s.digits).length s.arrays).map fun r => r.1 := by
  have hlen := length_utf8 hletters
  have hpos := length_pos_iff.mpr hne
  have hsrc : utf8 gs ≠ [] := by
    intro hnil
    rw [hnil, length_nil] at hlen
    omega
  have hloop := @loop_reads gs _ _ ((utf8 gs).length + 1) hletters hs (by omega)
  have hread : ¬ (s.state []).rest.length = (utf8 gs).length := by
    show ¬ 0 = (utf8 gs).length
    omega
  unfold q_to_num
  rw [if_neg hsrc, state_start, hloop, Option.bind_some, if_neg hread]
  by_cases hcells : s.cells = []
  · have hzero : (s.state []).len = 0 := by
      show s.cells.length = 0
      rw [hcells]
      rfl
    rw [if_pos hzero, if_pos hcells]
    have hdigits := (arrays_digits s).1
    rw [hcells] at hdigits
    exact congrArg some hdigits
  · have hlen' : ¬ (s.state []).len = 0 := fun h => hcells (length_eq_zero_iff.mp h)
    have hfull : ¬ (s.state []).len = 32 := by
      show ¬ s.cells.length = 32
      omega
    rw [if_neg hlen', if_neg hfull, if_neg hcells]
    simp only [closeLast_state [] fun hdigits => hlast hdigits hcells]

end Result

end QToNum

end KalavaPir.Common
