/-
  KalavaPir.Common.CString — the C library on strings, as far as the sources
  use it.

  A string is a list of characters, one character standing for one byte.  What
  `c_str()`, `strlen` and `%s` see of it ends at the first NUL.  Numbers are
  unbounded: `%d` prints and `atoi` reads what an `int32_t` holds.
-/
import Mathlib.Data.List.DropRight
import Mathlib.Algebra.Ring.Int.Defs
import Mathlib.Algebra.Ring.Nat

namespace KalavaPir.Common

/-! ## §1. Definitions. -/

/-- The C string in a buffer. -/
def c_str (s : List Char) : List Char := s.takeWhile (· != '\x00')

/-- `isspace`, in the C locale. -/
def isspace (c : Char) : Bool :=
  c == ' ' || (9 ≤ c.toNat && c.toNat ≤ 13)

/-- `atoi`: blanks, a sign, then as many digits as there are. -/
def atoi (s : List Char) : ℤ :=
  let digits (t : List Char) : ℤ :=
    (t.takeWhile Char.isDigit).foldl (fun n c => 10 * n + (c.toNat - 48 : ℕ)) 0
  match s.dropWhile isspace with
  | '-' :: t => -digits t
  | '+' :: t => digits t
  | t => digits t

/-- `%d` and `%02d` of a number that is not negative. -/
def decimal (n : ℕ) : List Char := Nat.toDigits 10 n
/-- The digits that `%02d` prints. -/
def decimal2 (n : ℕ) : List Char := if n < 10 then '0' :: decimal n else decimal n

/-- `strncasecmp(s, name, strlen(name))==0`. -/
def strncasecmp_eq (s name : List Char) : Bool :=
  (s.take name.length).map Char.toLower == name.map Char.toLower

/-- `strcasecmp(s, t)==0`. -/
def strcasecmp_eq (s t : List Char) : Bool := s.map Char.toLower == t.map Char.toLower

/-! ## §2. Printed numbers. -/

variable {n : ℕ} {c : Char} {s : List Char}

/-- A number is printed in digits … -/
theorem isDigit_of_mem_decimal (h : c ∈ decimal n) : c.isDigit = true :=
  Nat.isDigit_of_mem_toDigits (by omega) (by omega) h

/-- … also with a leading zero. -/
theorem isDigit_of_mem_decimal2 (h : c ∈ decimal2 n) : c.isDigit = true := by
  unfold decimal2 at h
  split at h
  · rcases List.mem_cons.mp h with rfl | h
    · decide
    · exact isDigit_of_mem_decimal h
  · exact isDigit_of_mem_decimal h

/-- The leading zero does not count. -/
theorem ofDigitChars_decimal2 (n : ℕ) : Nat.ofDigitChars 10 (decimal2 n) 0 = n := by
  unfold decimal2
  split
  · rw [Nat.ofDigitChars_cons]
    exact Nat.ofDigitChars_ten_toDigits
  · exact Nat.ofDigitChars_ten_toDigits

/-- **`%02d` is injective.** -/
theorem decimal2_inj {m : ℕ} (h : decimal2 m = decimal2 n) : m = n := by
  have hm := ofDigitChars_decimal2 m
  rw [h, ofDigitChars_decimal2] at hm
  exact hm.symm

theorem length_decimal2_le {k : ℕ} (hk : 2 ≤ k) (h : n < 10 ^ k) : (decimal2 n).length ≤ k := by
  have hlen : (decimal n).length ≤ k := (Nat.length_toDigits_le_iff (by omega) (by omega)).mpr h
  unfold decimal2
  split
  · next hn =>
      have hone : (decimal n).length ≤ 1 :=
        (Nat.length_toDigits_le_iff (by omega) (by omega)).mpr (by omega)
      rw [List.length_cons]
      omega
  · exact hlen

theorem digit_bounds (h : c.isDigit = true) : 48 ≤ c.toNat ∧ c.toNat ≤ 57 := by
  unfold Char.isDigit at h
  rw [Bool.and_eq_true, decide_eq_true_eq, decide_eq_true_eq] at h
  obtain ⟨hlo, hhi⟩ := h
  exact ⟨hlo, hhi⟩

/-- A digit is no blank. -/
theorem isspace_digit (h : c.isDigit = true) : isspace c = false := by
  obtain ⟨hlo, hhi⟩ := digit_bounds h
  unfold isspace
  have hsp : c ≠ ' ' := by
    rintro rfl
    exact absurd h (by decide)
  simp only [Bool.or_eq_false_iff, beq_eq_false_iff_ne, Bool.and_eq_false_iff, decide_eq_false_iff_not]
  exact ⟨hsp, Or.inr (by omega)⟩

/-- The loop of `atoi`. -/
theorem foldl_digits (t : List Char) : ∀ n : ℕ,
    t.foldl (fun (n : ℤ) c => 10 * n + ((c.toNat - 48 : ℕ) : ℤ)) (n : ℤ) = (Nat.ofDigitChars 10 t n : ℤ) := by
  induction t with
  | nil =>
    intro n
    rfl
  | cons c t ih =>
    intro n
    rw [List.foldl_cons, Nat.ofDigitChars_cons, ← ih]
    congr 1

/-- **`atoi` of digits** is their value. -/
theorem atoi_digits (hne : s ≠ []) (hdigit : ∀ c ∈ s, c.isDigit = true) :
    atoi s = Nat.ofDigitChars 10 s 0 := by
  cases s with
  | nil => exact absurd rfl hne
  | cons c t =>
    have hc := hdigit c List.mem_cons_self
    have hspace : (c :: t).dropWhile isspace = c :: t := by
      simp [isspace_digit hc]
    have htake : (c :: t).takeWhile Char.isDigit = c :: t :=
      List.takeWhile_eq_self_iff.mpr hdigit
    have hval := foldl_digits (c :: t) 0
    unfold atoi
    rw [hspace]
    -- neither sign is a digit
    split
    · next heq =>
        injection heq with heq _
        subst heq
        exact absurd hc (by decide)
    · next heq =>
        injection heq with heq _
        subst heq
        exact absurd hc (by decide)
    · show List.foldl _ 0 ((c :: t).takeWhile Char.isDigit) = _
      rw [htake]
      exact hval

/-- **`atoi` reads back what `%d` printed.** -/
theorem atoi_decimal (n : ℕ) : atoi (decimal n) = n := by
  have hdigit : ∀ c ∈ decimal n, c.isDigit = true := fun c hc => isDigit_of_mem_decimal hc
  have hne : decimal n ≠ [] := Nat.toDigits_ne_nil
  rw [atoi_digits hne hdigit, decimal, Nat.ofDigitChars_ten_toDigits]

/-! ## §3. Comparison without case. -/

/-- The characters of the keys in the configuration files. -/
def isWord (c : Char) : Bool := c.isLower || c.isDigit || c == '-'

/-- `tolower` leaves them alone. -/
theorem toLower_word (h : isWord c = true) : c.toLower = c := by
  unfold Char.toLower
  rw [dif_neg]
  rintro ⟨hlo, hhi⟩
  have hlo : 65 ≤ c.toNat := hlo
  have hhi : c.toNat ≤ 90 := hhi
  unfold isWord at h
  rw [Bool.or_eq_true, Bool.or_eq_true] at h
  rcases h with (h | h) | h
  · unfold Char.isLower at h
    rw [Bool.and_eq_true, decide_eq_true_eq, ge_iff_le, UInt32.le_iff_toNat_le] at h
    have hle : 97 ≤ c.toNat := h.1
    omega
  · have := digit_bounds h
    omega
  · rw [beq_iff_eq] at h
    subst h
    exact absurd hlo (by decide)

theorem map_toLower_words (h : ∀ c ∈ s, isWord c = true) : s.map Char.toLower = s := by
  rw [List.map_congr_left (fun c hc => toLower_word (h c hc)), List.map_id']

/-- **The comparison with a key in words**: the line begins with the key, up
    to case. -/
theorem strncasecmp_eq_iff {name : List Char} (h : ∀ c ∈ name, isWord c = true) :
    strncasecmp_eq s name = true ↔ (s.take name.length).map Char.toLower = name := by
  unfold strncasecmp_eq
  rw [beq_iff_eq, map_toLower_words h]

end KalavaPir.Common
