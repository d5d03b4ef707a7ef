/-
  KalavaPir.Common.QHashDivisor — the divisor of a `QLinearHash`
  (`getDivisor` and `isPrime` of `common/qhashmap.h`).

  `isPrime` tries the numbers `i` with `i*i<=num`, and the square is one of
  `int32_t` values: behind 46340 it overflows.  `getDivisor` goes down from the
  number of buckets to the first prime.
-/
import Mathlib.Data.Nat.Prime.Basic
import Mathlib.Tactic.Linarith
import KalavaPir.Common.Int32
import KalavaPir.Framework.Loop

namespace KalavaPir.Common

open KalavaPir.Framework

/-! ## §1. The functions (qhashmap.h:391). -/

/-- A round of `for(i=2; i*i<=num; ++i) if(num%i==0) return false;`. -/
def isPrimeRound (num i : ℤ) : Option (LoopStep ℤ Bool) :=
  (int32 (i * i)).map fun square =>
    if square ≤ num then
      if num % i = 0 then .done false else .again (i + 1)
    else .done true

/-- `isPrime(num)`; no divisor is tried that is greater than the number. -/
def isPrime (num : ℤ) : Option Bool :=
  if num ≤ 1 then some false else loop (isPrimeRound num) num.toNat 2

/-- A round of `while(!isPrime(temp)&&temp>2) --temp;`. -/
def getDivisorRound (temp : ℤ) : Option (LoopStep ℤ ℤ) :=
  (isPrime temp).map fun prime =>
    if prime = false ∧ temp > 2 then .again (temp - 1) else .done temp

/-- `getDivisor(m)`. -/
def getDivisor (m : ℤ) : Option ℤ :=
  (loop getDivisorRound (m.toNat + 1) m).map fun temp => if temp = 2 then m else temp

/-! ## §2. Trying the divisors. -/

/-- The greatest number whose square is an `int32_t`. -/
def lastRoot : ℤ := 46340

variable {i num m : ℤ}

theorem int32_square (h2 : 2 ≤ i) (hi : i ≤ lastRoot) : int32 (i * i) = some (i * i) := by
  have hle : i * i ≤ 46340 * 46340 := Int.mul_le_mul hi hi (by omega) (by decide)
  have hpos : 0 ≤ i * i := mul_self_nonneg i
  exact int32_of_le hpos (by unfold INT32_MAX; omega)

theorem int32_square_last : int32 ((lastRoot + 1) * (lastRoot + 1)) = none := by decide

theorem isPrimeRound_eq (h2 : 2 ≤ i) (hi : i ≤ lastRoot) : isPrimeRound num i =
    some (if i * i ≤ num then if num % i = 0 then .done false else .again (i + 1) else .done true) := by
  unfold isPrimeRound
  rw [int32_square h2 hi, Option.map_some]

theorem mod_ne_zero (hprime : Nat.Prime num.toNat) (h2 : 2 ≤ i) (hi : i < num) : num % i ≠ 0 := by
  intro hmod
  have hdvd : i ∣ num := Int.dvd_of_emod_eq_zero hmod
  have hdvd' : i.toNat ∣ num.toNat := by
    rw [← Int.natCast_dvd_natCast, Int.toNat_of_nonneg (by omega), Int.toNat_of_nonneg (by omega)]
    exact hdvd
  rcases (Nat.dvd_prime hprime).mp hdvd' with hone | hself
  · omega
  · omega

theorem lt_of_mul_self_le (h2 : 2 ≤ i) (hsquare : i * i ≤ num) : i < num := by
  nlinarith

/-- A number that is not prime has a divisor that is tried, and none before it. -/
theorem exists_divisor (h2 : 2 ≤ num) (hnot : ¬ Nat.Prime num.toNat) :
    ∃ m : ℤ, 2 ≤ m ∧ m * m ≤ num ∧ num % m = 0 := by
  have hpos : 0 < num.toNat := by omega
  have hsquare := Nat.minFac_sq_le_self hpos hnot
  have hne : num.toNat ≠ 1 := by omega
  refine ⟨num.toNat.minFac, ?_, ?_, ?_⟩
  · exact_mod_cast (Nat.minFac_prime hne).two_le
  · have hcast : ((num.toNat.minFac ^ 2 : ℕ) : ℤ) ≤ (num.toNat : ℤ) := by exact_mod_cast hsquare
    rw [Int.toNat_of_nonneg (by omega), sq, Nat.cast_mul] at hcast
    exact hcast
  · apply Int.emod_eq_zero_of_dvd
    have hdvd := Nat.minFac_dvd num.toNat
    rw [← Int.natCast_dvd_natCast, Int.toNat_of_nonneg (by omega)] at hdvd
    exact hdvd

/-- **A NUMBER THAT IS NOT PRIME**: its divisor is found before a square
    overflows. -/
theorem isPrime_of_not_prime (hmax : num ≤ INT32_MAX) (hnot : ¬ Nat.Prime num.toNat) :
    isPrime num = some false := by
  unfold isPrime
  by_cases h1 : num ≤ 1
  · rw [if_pos h1]
  rw [if_neg h1]
  obtain ⟨m, hm2, hsquare, hmod⟩ := exists_divisor (by omega) hnot
  have hlt := lt_of_mul_self_le hm2 hsquare
  have hroot : m ≤ lastRoot := by
    unfold lastRoot
    unfold INT32_MAX at hmax
    nlinarith
  have hround : ∀ i, 2 ≤ i ∧ i ≤ m →
      (∃ i', isPrimeRound num i = some (.again i') ∧ (2 ≤ i' ∧ i' ≤ m) ∧
        (m - i').toNat < (m - i).toNat) ∨ ∃ r, isPrimeRound num i = some (.done r) ∧ r = false := by
    intro i hi
    have hin : i * i ≤ num := le_trans (Int.mul_le_mul hi.2 hi.2 (by omega) (by omega)) hsquare
    rw [isPrimeRound_eq hi.1 (by omega), if_pos hin]
    by_cases hzero : num % i = 0
    · rw [if_pos hzero]
      exact Or.inr ⟨false, rfl, rfl⟩
    rw [if_neg hzero]
    -- it is not the divisor, so that one is still to come
    have hne : i ≠ m := fun heq => hzero (heq ▸ hmod)
    exact Or.inl ⟨i + 1, rfl, ⟨by omega, by omega⟩, by omega⟩
  obtain ⟨r, hr, hfalse⟩ := loop_ends (fun i => (m - i).toNat) hround num.toNat
    (s := 2) ⟨le_refl 2, hm2⟩ (by omega)
  rw [hr, hfalse]

/-- **A PRIME BELOW 46340²**: the squares go beyond it before they overflow. -/
theorem isPrime_of_small_prime (hsmall : num < lastRoot * lastRoot) (hprime : Nat.Prime num.toNat) :
    isPrime num = some true := by
  have h2 := hprime.two_le
  unfold isPrime
  rw [if_neg (by omega)]
  have hround : ∀ i, 2 ≤ i ∧ i ≤ lastRoot ∧ i ≤ num →
      (∃ i', isPrimeRound num i = some (.again i') ∧ (2 ≤ i' ∧ i' ≤ lastRoot ∧ i' ≤ num) ∧
        (num - i').toNat < (num - i).toNat) ∨ ∃ r, isPrimeRound num i = some (.done r) ∧ r = true := by
    intro i hi
    rw [isPrimeRound_eq hi.1 hi.2.1]
    by_cases hin : i * i ≤ num
    · have hlt := lt_of_mul_self_le hi.1 hin
      have hne : i ≠ lastRoot := fun heq => absurd hin (by rw [heq]; omega)
      rw [if_pos hin, if_neg (mod_ne_zero hprime hi.1 hlt)]
      exact Or.inl ⟨i + 1, rfl, ⟨by omega, by omega, by omega⟩, by omega⟩
    · rw [if_neg hin]
      exact Or.inr ⟨true, rfl, rfl⟩
  obtain ⟨r, hr, htrue⟩ := loop_ends (fun i => (num - i).toNat) hround num.toNat
    (s := 2) ⟨le_refl 2, by decide, by omega⟩ (by omega)
  rw [hr, htrue]

/-- **A PRIME BEHIND 46340²**: the square behind it overflows. -/
theorem isPrime_of_large_prime (hlarge : lastRoot * lastRoot < num) (hprime : Nat.Prime num.toNat) :
    isPrime num = none := by
  have h2 := hprime.two_le
  unfold isPrime
  rw [if_neg (by omega)]
  refine loop_fails_or_goes (I := fun i => 2 ≤ i ∧ i ≤ lastRoot + 1) ?_ num.toNat ⟨le_refl 2, by decide⟩
  intro i hi
  by_cases hlast : i = lastRoot + 1
  · refine Or.inl ?_
    unfold isPrimeRound
    rw [hlast, int32_square_last]
    rfl
  have hroot : i ≤ lastRoot := by omega
  have hin : i * i ≤ num := le_trans (Int.mul_le_mul hroot hroot (by omega) (by decide)) (le_of_lt hlarge)
  rw [isPrimeRound_eq hi.1 hroot, if_pos hin,
    if_neg (mod_ne_zero hprime hi.1 (lt_of_mul_self_le hi.1 hin))]
  exact Or.inr ⟨i + 1, rfl, by omega, by omega⟩

/-! ## §3. Going down to a prime. -/

/-- A prime on which `isPrime` overflows. -/
def Overflows (p : ℤ) : Prop := lastRoot * lastRoot < p ∧ Nat.Prime p.toNat

/-- **`isPrime`** on the values of `int32_t`. -/
theorem isPrime_eq (hmax : num ≤ INT32_MAX) : (Overflows num ∧ isPrime num = none) ∨
      (¬ Overflows num ∧ ∃ b, isPrime num = some b ∧ (b = true ↔ Nat.Prime num.toNat)) := by
  by_cases hprime : Nat.Prime num.toNat
  · by_cases hlarge : lastRoot * lastRoot < num
    · exact Or.inl ⟨⟨hlarge, hprime⟩, isPrime_of_large_prime hlarge hprime⟩
    -- the square itself is no prime
    have hne : num ≠ lastRoot * lastRoot := by
      intro heq
      rw [heq] at hprime
      have htwo : 2 ∣ (lastRoot * lastRoot).toNat := by decide
      have heq2 := (Nat.prime_dvd_prime_iff_eq Nat.prime_two hprime).mp htwo
      exact absurd heq2 (by decide)
    refine Or.inr ⟨fun h => hlarge h.1, true, isPrime_of_small_prime (by omega) hprime, ?_⟩
    exact iff_of_true rfl hprime
  · refine Or.inr ⟨fun h => hprime h.2, false, isPrime_of_not_prime hmax hprime, ?_⟩
    exact iff_of_false Bool.false_ne_true hprime

/-- `d` is the divisor for `m` buckets. -/
def IsDivisor (m d : ℤ) : Prop :=
  (m = 1 ∧ d = 1) ∨ (Nat.Prime d.toNat ∧ d ≤ m ∧ ∀ p, d < p → p ≤ m → ¬ Nat.Prime p.toNat)

theorem IsDivisor.range {d : ℤ} (h : IsDivisor m d) : 1 ≤ d ∧ d ≤ m := by
  rcases h with ⟨hm, hd⟩ | ⟨hprime, hle, -⟩
  · omega
  · have h2 := hprime.two_le
    omega

/-- **THE DIVISOR**: with no prime that overflows, the greatest one. -/
theorem getDivisor_of_small (h1 : 1 ≤ m) (hmax : m ≤ INT32_MAX) (hsmall : ∀ p, p ≤ m → ¬ Overflows p) :
    ∃ d, getDivisor m = some d ∧ IsDivisor m d := by
  unfold getDivisor
  by_cases hm1 : m = 1
  · rw [hm1]
    exact ⟨1, by decide, Or.inl ⟨rfl, rfl⟩⟩
  have hround : ∀ temp, (2 ≤ temp ∧ temp ≤ m ∧ ∀ p, temp < p → p ≤ m → ¬ Nat.Prime p.toNat) →
      (∃ temp', getDivisorRound temp = some (.again temp') ∧
        (2 ≤ temp' ∧ temp' ≤ m ∧ ∀ p, temp' < p → p ≤ m → ¬ Nat.Prime p.toNat) ∧
        temp'.toNat < temp.toNat) ∨
      ∃ d, getDivisorRound temp = some (.done d) ∧
        Nat.Prime d.toNat ∧ d ≤ m ∧ ∀ p, d < p → p ≤ m → ¬ Nat.Prime p.toNat := by
    intro temp h
    obtain ⟨h2, hle, hbehind⟩ := h
    rcases isPrime_eq (le_trans hle hmax) with ⟨hbad, -⟩ | ⟨-, prime, heq, hprime⟩
    · exact absurd hbad (hsmall temp hle)
    unfold getDivisorRound
    rw [heq, Option.map_some]
    by_cases hgo : prime = false ∧ temp > 2
    · rw [if_pos hgo]
      refine Or.inl ⟨temp - 1, rfl, ⟨by omega, by omega, fun p hp hpm => ?_⟩, by omega⟩
      by_cases hpt : p = temp
      · rw [hpt]
        exact fun hbad => absurd (hprime.mpr hbad) (by simp [hgo.1])
      · exact hbehind p (by omega) hpm
    rw [if_neg hgo]
    refine Or.inr ⟨temp, rfl, ?_, hle, hbehind⟩
    cases hb : prime with
    | true => exact hprime.mp hb
    | false =>
      -- it has gone down to 2
      have htwo : temp = 2 := by
        by_contra hne
        exact hgo ⟨hb, by omega⟩
      rw [htwo]
      exact Nat.prime_two
  obtain ⟨d, hd, hprime, hle, hbehind⟩ := loop_ends Int.toNat hround (m.toNat + 1)
    (s := m) ⟨by omega, le_refl m, fun p hp hpm => absurd hp (by omega)⟩ (by omega)
  rw [hd, Option.map_some]
  by_cases htwo : d = 2
  · -- behind 2 there is 3
    have hm2 : m = 2 := by
      by_contra hne
      exact hbehind 3 (by omega) (by omega) Nat.prime_three
    rw [if_pos htwo, hm2]
    refine ⟨2, rfl, Or.inr ⟨Nat.prime_two, le_refl 2, fun p hp hpm => absurd hp (by omega)⟩⟩
  · rw [if_neg htwo]
    exact ⟨d, rfl, Or.inr ⟨hprime, hle, hbehind⟩⟩

/-- On the way down to it a prime overflows. -/
theorem getDivisor_of_large {p : ℤ} (hmax : m ≤ INT32_MAX) (hpm : p ≤ m) (hp : Overflows p) :
    getDivisor m = none := by
  have hloop : loop getDivisorRound (m.toNat + 1) m = none := by
    refine loop_fails_or_goes (I := fun temp => p ≤ temp ∧ temp ≤ m) ?_ (m.toNat + 1) ⟨hpm, le_refl m⟩
    intro temp h
    unfold getDivisorRound
    rcases isPrime_eq (le_trans h.2 hmax) with ⟨-, hnone⟩ | ⟨hnot, prime, heq, hprime⟩
    · rw [hnone]
      exact Or.inl rfl
    have hlarge : lastRoot * lastRoot < temp := lt_of_lt_of_le hp.1 h.1
    have hfalse : prime = false := by
      by_contra hne
      exact hnot ⟨hlarge, hprime.mp (by simpa using hne)⟩
    have hnep : temp ≠ p := fun heq' => hnot (heq' ▸ hp)
    have htwo : temp > 2 := lt_trans (by decide) hlarge
    rw [heq, Option.map_some, if_pos ⟨hfalse, htwo⟩]
    exact Or.inr ⟨temp - 1, rfl, by omega, by omega⟩
  unfold getDivisor
  rw [hloop]
  rfl

/-- **THE DIVISOR** for any number of buckets. -/
theorem getDivisor_eq (h1 : 1 ≤ m) (hmax : m ≤ INT32_MAX) :
    ((∃ p, p ≤ m ∧ Overflows p) ∧ getDivisor m = none) ∨
      ((∀ p, p ≤ m → ¬ Overflows p) ∧ ∃ d, getDivisor m = some d ∧ IsDivisor m d) := by
  by_cases hbad : ∃ p, p ≤ m ∧ Overflows p
  · obtain ⟨p, hpm, hp⟩ := hbad
    exact Or.inl ⟨⟨p, hpm, hp⟩, getDivisor_of_large hmax hpm hp⟩
  · have hsmall : ∀ p, p ≤ m → ¬ Overflows p := fun p hpm hp => hbad ⟨p, hpm, hp⟩
    exact Or.inr ⟨hsmall, getDivisor_of_small h1 hmax hsmall⟩

end KalavaPir.Common
