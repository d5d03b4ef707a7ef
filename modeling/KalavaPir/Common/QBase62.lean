/-
  KalavaPir.Common.QBase62 — numbers as strings of letters and digits,
  `common/qfunc.h`.

  Both functions compute in `uint64_t`.  When the string is read back, the
  multiplier wraps around behind the eleventh digit; the result is that of
  unbounded integers modulo 2⁶⁴ all the same.
-/
import Mathlib.Data.List.GetD
import Mathlib.Data.Nat.Digits.Lemmas

namespace KalavaPir.Common.Base62

open List

/-! ## §1. The functions. -/

/-- `ss` -/
def ss : List Char :=
  ['A', 'B', 'C', 'D', 'E', 'F', 'G', 'H', 'I', 'J', 'K', 'L', 'M', 'N', 'O', 'P', 'Q', 'R', 'S', 'T',
   'U', 'V', 'W', 'X', 'Y', 'Z', 'a', 'b', 'c', 'd', 'e', 'f', 'g', 'h', 'i', 'j', 'k', 'l', 'm', 'n',
   'o', 'p', 'q', 'r', 's', 't', 'u', 'v', 'w', 'x', 'y', 'z', '0', '1', '2', '3', '4', '5', '6', '7', '8', '9']

/-- `while(rest) { … }`; `ss.at` throws (`none`) behind the last letter. -/
def idLoop (rest : UInt64) (s : List Char) : Option (List Char) :=
  if rest ≠ 0 then
    match ss[(rest - (rest / 62) * 62).toNat]? with
    | none => none
    | some ch => idLoop (rest / 62) (ch :: s)
  else some s
termination_by rest.toNat
decreasing_by
  have hrest : rest ≠ 0 := by assumption
  have hpos : 0 < rest.toNat := Nat.pos_of_ne_zero fun hz => hrest (UInt64.toNat_inj.mp hz)
  rw [UInt64.toNat_div]
  exact Nat.div_lt_self hpos (by decide)

/-- qfunc.h:866 -/
def q_id_to_62string (value : UInt64) : Option (List Char) := idLoop value []

/-- `ss.find(ch)`, where `none` is `ss.npos`. -/
def find (ch : Char) : Option ℕ := if ch ∈ ss then some (ss.idxOf ch) else none

/-- The loop, over the characters from the last one on. -/
def readDigits : List Char → UInt64 → UInt64 → Except String UInt64
  | [], _, result => .ok result
  | ch :: s, multiple, result =>
    match find ch with
    | none => .error ("Unknown char: (" ++ ch.toString ++ ") error!")
    | some pos => readDigits s (multiple * 62) (result + UInt64.ofNat pos * multiple)

/-- qfunc.h:878 -/
def q_62string_to_id (s : List Char) : Except String UInt64 := readDigits s.reverse 1 0

/-! ## §2. Letters and digits. -/

/-- The letter of a digit. -/
def letter (d : ℕ) : Char := ss.getD d 'A'

/-- The number that a string of letters denotes. -/
def denotes (s : List Char) : ℕ := Nat.ofDigits 62 (s.reverse.map ss.idxOf)

theorem length_ss : ss.length = 62 := by decide

theorem nodup_ss : ss.Nodup := by decide

variable {d : ℕ} {s : List Char}

theorem getElem?_ss (hd : d < 62) : ss[d]? = some (letter d) := by
  unfold letter
  rw [getD_eq_getElem?_getD, getElem?_eq_getElem (by rw [length_ss]; exact hd)]
  rfl

/-- A letter has its digit. -/
theorem find_letter (hd : d < 62) : find (letter d) = some d := by
  have hlt : d < ss.length := by
    exact hd
  have heq : letter d = ss[d] := by
    unfold letter
    rw [getD_eq_getElem _ _ hlt]
  unfold find
  rw [heq, if_pos (getElem_mem hlt), nodup_ss.idxOf_getElem d hlt]

theorem idxOf_lt {ch : Char} (h : ch ∈ ss) : ss.idxOf ch < 62 := by
  have hlt := idxOf_lt_length_of_mem h
  exact hlt

theorem letter_idxOf {ch : Char} (h : ch ∈ ss) : letter (ss.idxOf ch) = ch := by
  have hlt := idxOf_lt_length_of_mem h
  unfold letter
  rw [getD_eq_getElem _ _ hlt]
  exact getElem_idxOf hlt

/-! ## §3. Writing. -/

theorem toNat_lastDigit (rest : UInt64) : (rest - (rest / 62) * 62).toNat = rest.toNat % 62 := by
  have hmul : ((rest / 62) * 62).toNat = rest.toNat / 62 * 62 := by
    have hbound := rest.toNat_lt
    show rest.toNat / 62 * 62 % 2 ^ 64 = _
    exact Nat.mod_eq_of_lt (by omega)
  have hle : (rest / 62) * 62 ≤ rest := by
    rw [UInt64.le_iff_toNat_le, hmul]
    omega
  rw [UInt64.toNat_sub_of_le _ _ hle, hmul]
  omega

/-- **The loop writes the digits**, the last one first. -/
theorem idLoop_eq (n : ℕ) : ∀ {rest : UInt64} {s : List Char}, rest.toNat ≤ n →
    idLoop rest s = some ((Nat.digits 62 rest.toNat).reverse.map letter ++ s) := by
  induction n with
  | zero =>
    intro rest s hn
    obtain rfl : rest = 0 := UInt64.toNat_inj.mp (Nat.le_zero.mp hn)
    rw [idLoop, if_neg (by simp)]
    simp
  | succ n ih =>
    intro rest s hn
    rw [idLoop]
    by_cases h : rest ≠ 0
    · have hpos : 0 < rest.toNat := Nat.pos_of_ne_zero fun hz => h (UInt64.toNat_inj.mp hz)
      have hdiv : (rest / 62).toNat = rest.toNat / 62 := UInt64.toNat_div _ _
      rw [if_pos h, toNat_lastDigit, getElem?_ss (Nat.mod_lt _ (by decide))]
      show idLoop (rest / 62) (letter (rest.toNat % 62) :: s) = _
      rw [ih (by omega), hdiv, Nat.digits_def' (by decide) hpos, reverse_cons, map_append,
        append_assoc]
      rfl
    · rw [if_neg h]
      obtain rfl : rest = 0 := not_not.mp h
      simp

/-- **THE DIGITS** in base 62. -/
theorem q_id_to_62string_eq (v : UInt64) :
    q_id_to_62string v = some ((Nat.digits 62 v.toNat).reverse.map letter) := by
  unfold q_id_to_62string
  rw [idLoop_eq v.toNat le_rfl, append_nil]

/-! ## §4. Reading. -/

/-- **The loop reads the value**, modulo 2⁶⁴. -/
theorem readDigits_eq (s : List Char) : ∀ {multiple result : ℕ}, (∀ ch ∈ s, ch ∈ ss) →
    readDigits s (UInt64.ofNat multiple) (UInt64.ofNat result) =
      .ok (UInt64.ofNat (result + multiple * Nat.ofDigits 62 (s.map ss.idxOf))) := by
  induction s with
  | nil =>
    intro multiple result _
    rfl
  | cons ch s ih =>
    intro multiple result h
    have hch := h ch mem_cons_self
    have hmultiple : UInt64.ofNat multiple * 62 = UInt64.ofNat (multiple * 62) :=
      (UInt64.ofNat_mul multiple 62).symm
    have hresult : UInt64.ofNat result + UInt64.ofNat (ss.idxOf ch) * UInt64.ofNat multiple =
        UInt64.ofNat (result + ss.idxOf ch * multiple) := by
      rw [UInt64.ofNat_add, UInt64.ofNat_mul]
    rw [readDigits, find, if_pos hch]
    dsimp only
    rw [hmultiple, hresult, ih fun c hc => h c (mem_cons_of_mem ch hc), map_cons,
      Nat.ofDigits_cons]
    congr 2
    ring

/-- **THEIR VALUE**, mod 2⁶⁴. -/
theorem q_62string_to_id_eq (h : ∀ ch ∈ s, ch ∈ ss) :
    q_62string_to_id s = .ok (UInt64.ofNat (denotes s)) := by
  have hread := @readDigits_eq s.reverse 1 0 fun ch hch => h ch (mem_reverse.mp hch)
  rw [Nat.zero_add, Nat.one_mul] at hread
  exact hread

/-! ## §5. The round trip. -/

theorem letter_mem (d : ℕ) : letter d ∈ ss := by
  unfold letter
  by_cases hd : d < ss.length
  · rw [getD_eq_getElem _ _ hd]
    exact getElem_mem hd
  · rw [getD_eq_default _ _ (not_lt.mp hd)]
    decide

theorem idxOf_letter (hd : d < 62) : ss.idxOf (letter d) = d := by
  have hfind := find_letter hd
  unfold find at hfind
  rw [if_pos (letter_mem d)] at hfind
  exact Option.some.inj hfind

/-- The digits have the value. -/
theorem denotes_digits (n : ℕ) : denotes ((Nat.digits 62 n).reverse.map letter) = n := by
  unfold denotes
  rw [← map_reverse, reverse_reverse, map_map]
  have hsame : (Nat.digits 62 n).map ((fun ch => ss.idxOf ch) ∘ letter) = (Nat.digits 62 n).map id :=
    map_congr_left fun d hd => idxOf_letter (Nat.digits_lt_base (by decide) hd)
  rw [hsame, map_id, Nat.ofDigits_digits]

/-- The digits of the number that a string denotes, if it does not begin with
    the letter for zero. -/
theorem digits_denotes (h : ∀ ch ∈ s, ch ∈ ss) (hhead : s.head? ≠ some 'A') :
    (Nat.digits 62 (denotes s)).reverse.map letter = s := by
  have hletters : (s.reverse.map ss.idxOf).map letter = s.reverse := by
    rw [map_map]
    have hsame : s.reverse.map (letter ∘ fun ch => ss.idxOf ch) = s.reverse.map id :=
      map_congr_left fun ch hch => letter_idxOf (h ch (mem_reverse.mp hch))
    rw [hsame, map_id]
  unfold denotes
  rw [Nat.digits_ofDigits 62 (by decide), map_reverse, hletters, reverse_reverse]
  · intro d hd
    obtain ⟨ch, hch, rfl⟩ := mem_map.mp hd
    exact idxOf_lt (h ch (mem_reverse.mp hch))
  -- the last digit is that of the first letter
  · intro hne hzero
    cases s with
    | nil => exact hne rfl
    | cons ch s =>
      have hlast : ss.idxOf ch = 0 := by
        simpa using hzero
      have hch : ch = 'A' := by
        rw [← letter_idxOf (h ch mem_cons_self), hlast]
        decide
      exact hhead (congrArg some hch)

/-- **BOTH DIRECTIONS ARE EXACT**: what is written is read back, for every
    number; and what is read is written again, for every string of letters that
    denotes a number below 2⁶⁴ and does not begin with the letter for zero. -/
theorem base62_round_trip :
    (∀ v : UInt64, ∃ s, q_id_to_62string v = some s ∧ q_62string_to_id s = .ok v) ∧
    ∀ s : List Char, (∀ ch ∈ s, ch ∈ ss) → s.head? ≠ some 'A' → denotes s < 2 ^ 64 →
      ∃ v, q_62string_to_id s = .ok v ∧ v.toNat = denotes s ∧ q_id_to_62string v = some s := by
  constructor
  · intro v
    refine ⟨_, q_id_to_62string_eq v, ?_⟩
    rw [q_62string_to_id_eq, denotes_digits, UInt64.ofNat_toNat]
    intro ch hch
    obtain ⟨d, -, rfl⟩ := List.mem_map.mp hch
    exact letter_mem d
  · intro s h hhead hbound
    have hv : (UInt64.ofNat (denotes s)).toNat = denotes s := UInt64.toNat_ofNat_of_lt' hbound
    refine ⟨_, q_62string_to_id_eq h, hv, ?_⟩
    rw [q_id_to_62string_eq, hv, digits_denotes h hhead]

/-- The letters of the greatest number. -/
def greatestId : List Char := ['V', '8', 'q', 'R', 'k', 'B', 'G', 'K', 'R', 'i', 'P']

theorem base62_round_trip_greatest : ∃ v, q_62string_to_id greatestId = .ok v ∧
    v.toNat = denotes greatestId ∧ q_id_to_62string v = some greatestId := by
  have hletters : greatestId ⊆ ss := by decide
  exact base62_round_trip.2 greatestId hletters (by decide) (by decide)

end KalavaPir.Common.Base62
