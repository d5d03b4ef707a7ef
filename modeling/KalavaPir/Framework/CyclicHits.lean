/-
  KalavaPir.Framework.CyclicHits — counting the hits of a periodic scan.

  A scan goes through the natural numbers and stops at the ones that satisfy
  `P`, one after the other.  When `P` is periodic, the stops of one period come
  back shifted by the period, whichever stop one starts from, and so does every
  property of a stop that is periodic itself.
-/
import Mathlib.Data.Nat.Count
import Mathlib.Algebra.Ring.Periodic

namespace KalavaPir.Framework

open Finset

variable {P Q : ℕ → Prop}

/-! ## §1. One stop after the other. -/

/-- The scan, started after `t`, stops at `u`. -/
def NextHit (P : ℕ → Prop) (t u : ℕ) : Prop :=
  t < u ∧ P u ∧ ∀ m, t < m → m < u → ¬ P m

/-- The stops of a scan, the first of them given. -/
structure Visits (P : ℕ → Prop) (τ : ℕ → ℕ) : Prop where
  first : P (τ 0)
  next : ∀ k, NextHit P (τ k) (τ (k + 1))

variable {τ : ℕ → ℕ}

/-- Every visit is a hit. -/
theorem Visits.hit (h : Visits P τ) : ∀ k, P (τ k)
  | 0 => h.first
  | k + 1 => (h.next k).2.1

/-- There is always a next hit. -/
theorem NextHit.exists_of_unbounded (hP : ∀ t, ∃ u, t < u ∧ P u) (t : ℕ) : ∃ u, NextHit P t u := by
  classical
  obtain ⟨hlt, hhit⟩ := Nat.find_spec (hP t)
  refine ⟨Nat.find (hP t), hlt, hhit, ?_⟩
  intro m htm hm hPm
  exact Nat.find_min (hP t) hm ⟨htm, hPm⟩

theorem NextHit.count [DecidablePred Q] (hQP : ∀ t, Q t → P t) {t u : ℕ} (h : NextHit P t u) :
    Nat.count Q u = Nat.count Q t + if Q t then 1 else 0 := by
  obtain ⟨hlt, -, hno⟩ := h
  obtain ⟨m, rfl⟩ := Nat.exists_eq_add_of_lt hlt
  have hbetween : Nat.count (fun k => Q (t + 1 + k)) m = 0 := by
    rw [Nat.count_iff_forall_not]
    exact fun k hk hQ => hno (t + 1 + k) (by omega) (by omega) (hQP _ hQ)
  rw [show t + m + 1 = t + 1 + m by omega, Nat.count_add, hbetween, Nat.count_succ, Nat.add_zero]

theorem Visits.count_run [DecidablePred Q] (hQP : ∀ t, Q t → P t) (h : Visits P τ) (k m : ℕ) :
    Nat.count Q (τ (k + m)) = Nat.count Q (τ k) + Nat.count (fun j => Q (τ (k + j))) m := by
  induction m with
  | zero => simp
  | succ m ih =>
    rw [← Nat.add_assoc, (h.next (k + m)).count hQP, ih, Nat.count_succ, Nat.add_assoc]

/-! ## §2. Periodic scans. -/

variable {p i : ℕ}

theorem count_add_period [DecidablePred Q] (hQ : Function.Periodic Q p) (t : ℕ) :
    Nat.count Q (t + p) = Nat.count Q t + Nat.count Q p := by
  induction t with
  | zero => simp
  | succ t ih =>
    have hper : (if Q (t + p) then 1 else 0) = (if Q t then 1 else 0) := by
      simp only [hQ t]
    rw [show t + 1 + p = t + p + 1 by omega, Nat.count_succ, ih, hper, Nat.count_succ]
    omega

/-- **The scan repeats itself.** -/
theorem Visits.shift [DecidablePred P] (h : Visits P τ) (hP : Function.Periodic P p) (k : ℕ) :
    τ (k + Nat.count P p) = τ k + p := by
  refine Nat.count_injective (h.hit _) ((hP (τ k)).symm ▸ h.hit k) ?_
  rw [h.count_run (fun _ ht => ht), count_add_period hP,
    Nat.count_iff_forall.mpr fun j _ => h.hit (k + j)]

/-- **Exact shares.**  As many stops in a row as one period has contain each
    kind `Q` as often as one period does. -/
theorem Visits.count_block [DecidablePred P] [DecidablePred Q] (hQP : ∀ t, Q t → P t) (h : Visits P τ)
    (hP : Function.Periodic P p) (hQ : Function.Periodic Q p) (k : ℕ) :
    Nat.count (fun j => Q (τ (k + j))) (Nat.count P p) = Nat.count Q p := by
  have hrun := h.count_run hQP k (Nat.count P p)
  rw [h.shift hP, count_add_period hQ] at hrun
  omega

/-! ## §3. The turn table. -/

/-- At time `t` round `t / n` looks at place `t % n`; in every `L` rounds place
    `i` is open in the last `q i` of them. -/
def Turn (n L : ℕ) (q : ℕ → ℕ) (t : ℕ) : Prop := L - t / n % L ≤ q (t % n)

instance (n L : ℕ) (q : ℕ → ℕ) : DecidablePred (Turn n L q) :=
  fun _ => inferInstanceAs (Decidable (_ ≤ _))

variable {n L : ℕ} {q : ℕ → ℕ}

section

variable (hn : 0 < n)
include hn

theorem turn_periodic : Function.Periodic (Turn n L q) (n * L) := by
  intro t
  simp only [Turn, Nat.add_mul_div_left _ _ hn, Nat.add_mod_right, Nat.add_mul_mod_self_left]

theorem turn_at_periodic (i : ℕ) : Function.Periodic (fun t => Turn n L q t ∧ t % n = i) (n * L) := by
  intro t
  simp only [turn_periodic hn t, Nat.add_mul_mod_self_left]

/-- There is always a next turn. -/
theorem turn_unbounded (hL : 0 < L) (hq : ∀ i, i < n → 1 ≤ q i) (t : ℕ) : ∃ u, t < u ∧ Turn n L q u := by
  refine ⟨n * (L - 1) + n * L * (t + 1), ?_, ?_⟩
  · have hmul : t + 1 ≤ n * L * (t + 1) := Nat.le_mul_of_pos_left _ (Nat.mul_pos hn hL)
    omega
  · have hq0 := hq 0 hn
    rw [Turn, Nat.mul_assoc, ← Nat.mul_add, Nat.mul_div_cancel_left _ hn, Nat.mul_mod_right,
      Nat.add_mul_mod_self_left, Nat.mod_eq_of_lt (by omega)]
    omega

/-- One round. -/
theorem count_round (hi : i < n) {r : ℕ} (hr : r < L) :
    Nat.count (fun k => Turn n L q (n * r + k) ∧ (n * r + k) % n = i) n =
      if L - r ≤ q i then 1 else 0 := by
  have hround : ∀ k, k < n →
      ((Turn n L q (n * r + k) ∧ (n * r + k) % n = i) ↔ (k = i ∧ L - r ≤ q i)) := by
    intro k hk
    have hdiv : (n * r + k) / n = r := by
      rw [Nat.mul_add_div hn, Nat.div_eq_of_lt hk, Nat.add_zero]
    have hmod : (n * r + k) % n = k := by
      rw [Nat.mul_add_mod, Nat.mod_eq_of_lt hk]
    rw [Turn, hdiv, hmod, Nat.mod_eq_of_lt hr]
    constructor
    · rintro ⟨hle, rfl⟩
      exact ⟨rfl, hle⟩
    · rintro ⟨rfl, hle⟩
      exact ⟨hle, rfl⟩
  rw [Nat.count_eq_card_filter_range,
    filter_congr fun k hk => hround k (mem_range.mp hk)]
  split
  next hopen =>
    rw [card_eq_one]
    refine ⟨i, Finset.ext fun k => ?_⟩
    simp only [mem_filter, mem_range, mem_singleton]
    constructor
    · exact fun h => h.2.1
    · rintro rfl
      exact ⟨hi, rfl, hopen⟩
  next hclosed =>
    rw [card_eq_zero, filter_eq_empty_iff]
    exact fun k _ h => hclosed h.2

theorem count_rounds (hi : i < n) (hqL : q i ≤ L) : ∀ r, r ≤ L →
      Nat.count (fun t => Turn n L q t ∧ t % n = i) (n * r) = r - (L - q i) := by
  intro r
  induction r with
  | zero => simp
  | succ r ih =>
    intro hr
    rw [Nat.mul_succ, Nat.count_add, ih (by omega), count_round hn hi (by omega)]
    split <;> omega

/-- The turn table: rounds of `n` places, place `i` open in the last `q i` rounds of every `L`. -/
theorem count_turn (hi : i < n) (hqL : q i ≤ L) : Nat.count (fun t => Turn n L q t ∧ t % n = i) (n * L) = q i := by
  rw [count_rounds hn hi hqL L le_rfl]
  omega

/-- The turns of a whole cycle. -/
theorem count_turns (hqL : ∀ i, i < n → q i ≤ L) : Nat.count (Turn n L q) (n * L) = ∑ i ∈ Finset.range n, q i := by
  rw [Nat.count_eq_card_filter_range,
    card_eq_sum_card_fiberwise (t := Finset.range n) (f := fun t => t % n)
      fun t _ => mem_coe.mpr (mem_range.mpr (Nat.mod_lt t hn))]
  refine sum_congr rfl fun i hi => ?_
  rw [filter_filter, ← Nat.count_eq_card_filter_range,
    count_turn hn (mem_range.mp hi) (hqL i (mem_range.mp hi))]

end

end KalavaPir.Framework
