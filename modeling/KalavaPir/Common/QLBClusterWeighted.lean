/-
  KalavaPir.Common.QLBClusterWeighted — `get_server_WRR` under changing weights.

  The scan visits the servers after the iterator; each time it wraps to server 0
  the current weight goes down by `gcd()`, or up again to `max_weight()`.
  `gcd()` is a common divisor only while all weights are positive: otherwise it
  is the LEAST weight, and a wrap does not lower the current weight at all.
-/
import KalavaPir.Common.QLBCluster
import Mathlib.Algebra.Order.Group.Nat

namespace KalavaPir.Common.QLBCluster

open KalavaPir.Framework

variable {cl : QLBCluster}

/-! ## §1. What a wrap subtracts. -/

theorem trial_pos : ∀ {m : ℕ}, 1 ≤ m → 1 ≤ cl.trial m
  | 0, h => absurd h (by omega)
  | m + 1, _ => by
    rw [trial]
    split
    next => omega
    next hno =>
      cases m with
      | zero =>
        -- everything is divisible by 1
        exact absurd (by simp [Int.tmod_one]) hno
      | succ m => exact trial_pos (by omega)

theorem trial_le : ∀ m : ℕ, cl.trial m ≤ m
  | 0 => le_rfl
  | m + 1 => by
    rw [trial]
    split
    next => exact_mod_cast le_rfl
    next =>
      have ih := trial_le m
      omega

theorem gcd_pos (hn : 1 ≤ cl.server_now_) (hpos : ∀ j, j < cl.server_now_ → 0 < cl.weight j) :
    1 ≤ cl.gcd := by
  obtain ⟨_, j, hj, hmin⟩ := cl.min_weight_spec hn
  have hge := hpos j hj
  rw [gcd, if_neg (by omega), if_pos (by omega)]
  exact trial_pos (by omega)

variable {j j₀ : ℕ} {c : ℤ}

/-- What a wrap subtracts. -/
theorem gcd_le_zero (hn : 1 ≤ cl.server_now_) (hj : j < cl.server_now_) (hdead : cl.weight j ≤ 0) :
    cl.gcd = cl.min_weight ∧ cl.min_weight ≤ 0 := by
  have hle := (cl.min_weight_spec hn).1 j hj
  rw [gcd, if_neg (by omega), if_neg (by omega)]
  exact ⟨rfl, by omega⟩

/-! ## §2. One turn of the scan. -/

theorem WRR_loop_mod (fuel i : ℕ) (c : ℤ) :
    cl.WRR_loop fuel (i % cl.server_now_) c = cl.WRR_loop fuel i c := by
  cases fuel with
  | zero => rfl
  | succ fuel =>
    rw [WRR_loop, WRR_loop]
    simp only [Nat.mod_add_mod]

theorem WRR_loop_ahead (hmax : cl.server_now_ ≤ cl.server_max_) (fuel : ℕ) {i : ℕ} (c : ℤ)
    (hi : i + 1 < cl.server_now_) : cl.WRR_loop (fuel + 1) i c =
      if c ≤ cl.weight (i + 1) then
        some (((i + 1 : ℕ) : ℤ), { cl with server_iter_ := i + 1, current_weight_ := c })
      else cl.WRR_loop fuel (i + 1) c := by
  rw [WRR_loop]
  simp only [Nat.mod_eq_of_lt hi, next_weight_of_ne (Nat.succ_ne_zero i)]
  rw [if_neg (by omega), if_neg (by omega)]

variable {c' : ℤ} {k : ℕ}

section

variable (hmax : cl.server_now_ ≤ cl.server_max_)
include hmax

theorem WRR_loop_wrap (hn : 1 ≤ cl.server_now_) (fuel : ℕ) (hc : cl.next_weight 0 c = some c') (hne : c' ≠ 0) :
    cl.WRR_loop (fuel + 1) (cl.server_now_ - 1) c =
      if c' ≤ cl.weight 0 then
        some (((0 : ℕ) : ℤ), { cl with server_iter_ := 0, current_weight_ := c' })
      else cl.WRR_loop fuel 0 c' := by
  rw [WRR_loop]
  simp only [Nat.sub_add_cancel hn, Nat.mod_self, hc]
  rw [if_neg (by omega), if_neg (by omega)]

/-- The first server after `i` that is heavy enough is the answer. -/
theorem WRR_loop_hit (hk : k < cl.server_now_) (hheavy : c ≤ cl.weight k) (fuel : ℕ) :
    ∀ n i, i + n + 1 = k → (∀ j, i < j → j < k → cl.weight j < c) →
      cl.WRR_loop (fuel + n + 1) i c =
        some ((k : ℤ), { cl with server_iter_ := k, current_weight_ := c }) := by
  intro n
  induction n with
  | zero =>
    intro i hi _
    obtain rfl : i + 1 = k := by omega
    rw [WRR_loop_ahead hmax _ c hk, if_pos hheavy]
  | succ n ih =>
    intro i hi hlight
    have hlight' := hlight (i + 1) (by omega) (by omega)
    rw [WRR_loop_ahead hmax _ c (by omega), if_neg (not_le.mpr hlight')]
    exact ih (i + 1) (by omega) fun j hj => hlight j (by omega)

/-- With none of them heavy enough the scan reaches the last server. -/
theorem WRR_loop_pass (fuel : ℕ) :
    ∀ n i, i + n + 1 = cl.server_now_ → (∀ j, i < j → j < cl.server_now_ → cl.weight j < c) →
      cl.WRR_loop (fuel + n) i c = cl.WRR_loop fuel (cl.server_now_ - 1) c := by
  intro n
  induction n with
  | zero =>
    intro i hi _
    rw [show cl.server_now_ - 1 = i by omega]
    rfl
  | succ n ih =>
    intro i hi hlight
    have hlight' := hlight (i + 1) (by omega) (by omega)
    rw [← Nat.add_assoc, WRR_loop_ahead hmax _ c (by omega), if_neg (not_le.mpr hlight')]
    exact ih (i + 1) (by omega) fun j hj => hlight j (by omega)

/-- A wrap to a current weight that some server reaches. -/
theorem WRR_loop_wrap_hit (hc : cl.next_weight 0 c = some c') (hne : c' ≠ 0) (hj : j < cl.server_now_)
    (hheavy : c' ≤ cl.weight j) : ∃ fuel k, k < cl.server_now_ ∧ c' ≤ cl.weight k ∧ (∀ m, m < k → cl.weight m < c') ∧
      cl.WRR_loop fuel (cl.server_now_ - 1) c =
        some ((k : ℤ), { cl with server_iter_ := k, current_weight_ := c' }) := by
  classical
  have hsome : ∃ k, k < cl.server_now_ ∧ c' ≤ cl.weight k := ⟨j, hj, hheavy⟩
  obtain ⟨hk, hle⟩ := Nat.find_spec hsome
  have hfirst : ∀ m, m < Nat.find hsome → cl.weight m < c' := by
    intro m hm
    by_contra hcon
    exact Nat.find_min hsome hm ⟨by omega, not_lt.mp hcon⟩
  refine ⟨cl.server_now_ + 1, Nat.find hsome, hk, hle, hfirst, ?_⟩
  rw [WRR_loop_wrap hmax (by omega) _ hc hne]
  rcases Nat.eq_zero_or_pos (Nat.find hsome) with hzero | hpos
  · rw [hzero] at hle ⊢
    rw [if_pos hle]
  rw [if_neg (not_le.mpr (hfirst 0 hpos))]
  have hrun := WRR_loop_hit hmax hk hle 0 (Nat.find hsome - 1) 0 (by omega)
    fun m _ hm => hfirst m hm
  exact WRR_loop_mono (by omega) hrun

theorem WRR_loop_wrap_pass (hn : 1 ≤ cl.server_now_) (hc : cl.next_weight 0 c = some c') (hne : c' ≠ 0)
    (hlight : ∀ j, j < cl.server_now_ → cl.weight j < c') (fuel : ℕ) :
    cl.WRR_loop (fuel + cl.server_now_) (cl.server_now_ - 1) c =
      cl.WRR_loop fuel (cl.server_now_ - 1) c' := by
  rw [show fuel + cl.server_now_ = fuel + (cl.server_now_ - 1) + 1 by omega,
    WRR_loop_wrap hmax hn _ hc hne, if_neg (not_le.mpr (hlight 0 hn))]
  exact WRR_loop_pass hmax fuel _ 0 (by omega) fun j _ hj => hlight j hj

end

/-! ## §3. Positive weights. -/

/-- A wrap of an `int32_t` current weight does not overflow. -/
theorem next_weight_positive (h : WellFormed cl) (hpos : ∀ j, j < cl.server_now_ → 0 < cl.weight j)
    (hc : 0 ≤ c) (hmax : c ≤ INT32_MAX) :
    cl.next_weight 0 c = some (if c - cl.gcd ≤ 0 then cl.max_weight else c - cl.gcd) := by
  have hg := gcd_pos h.one_server hpos
  have hle : cl.gcd ≤ INT32_MAX := by
    obtain ⟨_, j, hj, hmin⟩ := cl.min_weight_spec h.one_server
    have hj' := hpos j hj
    have htrial : cl.trial cl.min_weight.toNat ≤ _ := trial_le _
    have hw := (h.weights j).2
    rw [gcd, if_neg (by omega), if_pos (by omega)]
    omega
  have hint : IsInt32 (c - cl.gcd) := by
    unfold IsInt32 INT32_MIN INT32_MAX at *
    omega
  exact next_weight_zero.mpr ⟨hint, rfl⟩

theorem max_weight_attained (hn : 1 ≤ cl.server_now_) (hpos : ∀ j, j < cl.server_now_ → 0 < cl.weight j) :
    0 < cl.max_weight ∧ ∃ j, j < cl.server_now_ ∧ cl.max_weight = cl.weight j := by
  obtain ⟨_, hall, hzero | hsome⟩ := cl.max_weight_spec
  · have h₀ := hpos 0 hn
    have hle := hall 0 hn
    omega
  · obtain ⟨j, hj, heq⟩ := hsome
    exact ⟨heq ▸ hpos j hj, j, hj, heq⟩

/-- With positive weights every wrap leads to an answer: the current weight goes
    down until some server reaches it. -/
theorem WRR_loop_positive (h : WellFormed cl) (hpos : ∀ j, j < cl.server_now_ → 0 < cl.weight j) :
    ∀ (n : ℕ) (c : ℤ), 0 ≤ c → c ≤ INT32_MAX → c ≤ n → ∃ fuel k cl', k < cl.server_now_ ∧
        cl.WRR_loop fuel (cl.server_now_ - 1) c = some ((k : ℤ), cl') := by
  have hg := gcd_pos h.one_server hpos
  intro n
  induction n with
  | zero =>
    intro c hc hmax hn
    have hnext := next_weight_positive h hpos hc hmax
    rw [if_pos (by omega)] at hnext
    obtain ⟨hgt, j, hj, heq⟩ := max_weight_attained h.one_server hpos
    obtain ⟨fuel, k, hk, _, _, hrun⟩ :=
      WRR_loop_wrap_hit h.now_le_max hnext (by omega) hj (le_of_eq heq)
    exact ⟨fuel, k, _, hk, hrun⟩
  | succ n ih =>
    intro c hc hmax hn
    by_cases hlow : c ≤ n
    · exact ih c hc hmax hlow
    have hnext := next_weight_positive h hpos hc hmax
    by_cases hreset : c - cl.gcd ≤ 0
    · rw [if_pos hreset] at hnext
      obtain ⟨hgt, j, hj, heq⟩ := max_weight_attained h.one_server hpos
      obtain ⟨fuel, k, hk, _, _, hrun⟩ :=
        WRR_loop_wrap_hit h.now_le_max hnext (by omega) hj (le_of_eq heq)
      exact ⟨fuel, k, _, hk, hrun⟩
    rw [if_neg hreset] at hnext
    by_cases hsome : ∃ j, j < cl.server_now_ ∧ c - cl.gcd ≤ cl.weight j
    · obtain ⟨j, hj, hle⟩ := hsome
      obtain ⟨fuel, k, hk, _, _, hrun⟩ :=
        WRR_loop_wrap_hit h.now_le_max hnext (by omega) hj hle
      exact ⟨fuel, k, _, hk, hrun⟩
    obtain ⟨fuel, k, cl', hk, hrun⟩ := ih (c - cl.gcd) (by omega) (by omega) (by omega)
    refine ⟨fuel + cl.server_now_, k, cl', hk, ?_⟩
    rw [WRR_loop_wrap_pass h.now_le_max h.one_server hnext (by omega) ?_ fuel]
    · exact hrun
    · intro j hj
      by_contra hcon
      exact hsome ⟨j, hj, not_lt.mp hcon⟩

/-! ## §4. A dead server. -/

/-- A current weight above all weights, and a weight that is not positive: no
    wrap lowers the current weight, and the scan goes on for ever (or until the
    current weight overflows). -/
theorem WRR_spins (hn : 1 ≤ cl.server_now_) (hj₀ : j₀ < cl.server_now_) (hdead : cl.weight j₀ ≤ 0) :
    ∀ (fuel i : ℕ) (c : ℤ), 0 < c → (∀ j, j < cl.server_now_ → cl.weight j < c) →
      cl.WRR_loop fuel i c = none := by
  obtain ⟨hg, hle⟩ := gcd_le_zero hn hj₀ hdead
  intro fuel
  induction fuel with
  | zero => intro i c _ _; rfl
  | succ fuel ih =>
    intro i c hc hlight
    rw [WRR_loop]
    split
    next => rfl
    next c' hnext =>
      -- the wrap, if it is one, does not lower the current weight
      have hge : c ≤ c' := by
        by_cases hwrap : (i + 1) % cl.server_now_ = 0
        · rw [hwrap] at hnext
          obtain ⟨-, rfl⟩ := next_weight_zero.mp hnext
          omega
        · rw [next_weight_of_ne hwrap] at hnext
          exact (Option.some.inj hnext).le
      have hlt := hlight _ (Nat.mod_lt (i + 1) hn)
      rw [if_neg (by omega)]
      split
      next => rfl
      next =>
        rw [if_neg (by omega)]
        exact ih _ c' (by omega) fun j hj => lt_of_lt_of_le (hlight j hj) hge

/-- The first server after the iterator that is heavy enough. -/
def HeavyAhead (cl : QLBCluster) (j : ℕ) : Prop :=
  cl.server_iter_ % cl.server_now_ < j ∧ j < cl.server_now_ ∧ cl.current_weight_ ≤ cl.weight j ∧
    ∀ k, cl.server_iter_ % cl.server_now_ < k → k < j → cl.weight k < cl.current_weight_

/-- When the scheduler can be called: all servers are alive; or the first server
    after the iterator that is heavy enough is alive; or there is none, and the
    weight of some server and the least weight make up the current weight. -/
def Schedulable (cl : QLBCluster) : Prop :=
  (∀ j, j < cl.server_now_ → 0 < cl.weight j) ∨
    (∃ j, cl.HeavyAhead j ∧ 0 < cl.weight j) ∨
    ((∀ j, ¬ cl.HeavyAhead j) ∧
      ∃ j, j < cl.server_now_ ∧ ∀ k, k < cl.server_now_ →
        cl.current_weight_ ≤ cl.weight j + cl.weight k)

theorem HeavyAhead.unique (hj : cl.HeavyAhead j) (hk : cl.HeavyAhead k) : j = k := by
  rcases lt_trichotomy j k with hlt | heq | hgt
  · exact absurd (hk.2.2.2 j hj.1 hlt) (not_lt.mpr hj.2.2.1)
  · exact heq
  · exact absurd (hj.2.2.2 k hk.1 hgt) (not_lt.mpr hk.2.2.1)

theorem light_ahead (hno : ∀ j, ¬ cl.HeavyAhead j) :
    ∀ j, cl.server_iter_ % cl.server_now_ < j → j < cl.server_now_ → cl.weight j < cl.current_weight_ := by
  intro j
  induction j using Nat.strong_induction_on with
  | _ j ih =>
    intro hj hlt
    by_contra hcon
    exact hno j ⟨hj, hlt, not_lt.mp hcon, fun k hk hkj => ih k hkj hk (by omega)⟩

theorem right_used_iff (hk : k < cl.server_now_) : cl.Right k ↔ 0 < cl.weight k := by
  constructor
  · rintro (⟨j, -, hpos, heq⟩ | ⟨heq, -⟩)
    · exact (Int.ofNat_inj.mp heq) ▸ hpos
    · omega
  · exact fun hpos => Or.inl ⟨k, hk, hpos, rfl⟩

/-- Wrapping with a dead server to a current weight that no server reaches. -/
theorem WRR_wrap_spins (h : WellFormed cl) (hj₀ : j₀ < cl.server_now_) (hdead : cl.weight j₀ ≤ 0)
    (hc : 0 ≤ c) (hlight : ∀ j, j < cl.server_now_ → cl.weight j < c - cl.min_weight) (fuel : ℕ) :
    cl.WRR_loop fuel (cl.server_now_ - 1) c = none := by
  obtain ⟨hg, hle⟩ := gcd_le_zero h.one_server hj₀ hdead
  have hpos : 0 < c - cl.min_weight := by
    obtain ⟨-, m, hm, heq⟩ := cl.min_weight_spec h.one_server
    have hleast := hlight m hm
    omega
  cases fuel with
  | zero => rfl
  | succ fuel =>
    rw [WRR_loop, Nat.sub_add_cancel h.one_server, Nat.mod_self]
    split
    next => rfl
    next c' hnext =>
      obtain ⟨-, rfl⟩ := next_weight_zero.mp hnext
      have hmax := h.now_le_max
      rw [hg, if_neg (not_le.mpr hpos), if_neg (by omega), if_neg (by omega),
        if_neg (not_le.mpr (hlight 0 h.one_server))]
      exact WRR_spins h.one_server hj₀ hdead fuel 0 _ hpos hlight

/-- Wrapping with a dead server to a current weight that the server `j` reaches. -/
theorem WRR_wrap_answers (h : WellFormed cl) (hj₀ : j₀ < cl.server_now_) (hdead : cl.weight j₀ ≤ 0)
    (hj : j < cl.server_now_) (hreach : cl.current_weight_ - cl.min_weight ≤ cl.weight j) :
    ∃ fuel r cl', cl.WRR_loop fuel (cl.server_now_ - 1) cl.current_weight_ = some (r, cl') ∧
      cl.Right r := by
  obtain ⟨hg, hle⟩ := gcd_le_zero h.one_server hj₀ hdead
  obtain ⟨hmax_pos, hmax, hsome⟩ := cl.max_weight_spec
  have hcur := h.current
  have hint : IsInt32 (cl.current_weight_ - cl.gcd) := by
    have hw := (h.weights j).2
    unfold IsInt32 INT32_MIN
    omega
  by_cases hzero : cl.current_weight_ - cl.gcd ≤ 0
  · -- the current weight is 0 and so is the least weight: start again at the top
    have hnext : cl.next_weight 0 cl.current_weight_ = some cl.max_weight :=
      next_weight_zero.mpr ⟨hint, (if_pos hzero).symm⟩
    by_cases hmax_zero : cl.max_weight = 0
    · refine ⟨1, -1, { cl with current_weight_ := 0 }, ?_, Or.inr ⟨rfl, fun k hk => hmax_zero ▸ hmax k hk⟩⟩
      rw [WRR_loop, Nat.sub_add_cancel h.one_server, Nat.mod_self]
      simp only [hnext, hmax_zero, and_self, if_true]
    obtain ⟨k, hk, hkeq⟩ := hsome.resolve_left hmax_zero
    obtain ⟨fuel, k', hk', hheavy, _, hrun⟩ :=
      WRR_loop_wrap_hit h.now_le_max hnext hmax_zero hk (le_of_eq hkeq)
    exact ⟨fuel, k', _, hrun, (right_used_iff hk').mpr (by omega)⟩
  · have hnext : cl.next_weight 0 cl.current_weight_ = some (cl.current_weight_ - cl.gcd) :=
      next_weight_zero.mpr ⟨hint, (if_neg hzero).symm⟩
    obtain ⟨fuel, k', hk', hheavy, _, hrun⟩ :=
      WRR_loop_wrap_hit h.now_le_max hnext (by omega) hj (by omega)
    exact ⟨fuel, k', _, hrun, (right_used_iff hk').mpr (by omega)⟩

/-- Wrapping with a dead server: either some server's weight and the least
    weight make up the current weight, and the answer is right, or nothing is
    ever answered. -/
theorem WRR_loop_dead (h : WellFormed cl) (hj₀ : j₀ < cl.server_now_) (hdead : cl.weight j₀ ≤ 0) :
    (∃ fuel r cl', cl.WRR_loop fuel (cl.server_now_ - 1) cl.current_weight_ = some (r, cl') ∧
        cl.Right r) ↔ ∃ j, j < cl.server_now_ ∧ ∀ k, k < cl.server_now_ →
        cl.current_weight_ ≤ cl.weight j + cl.weight k := by
  obtain ⟨hmin, m, hm, heq⟩ := cl.min_weight_spec h.one_server
  constructor
  · rintro ⟨fuel, r, cl', hrun, -⟩
    by_contra hcon
    have hlight : ∀ j, j < cl.server_now_ →
        cl.weight j < cl.current_weight_ - cl.min_weight := by
      intro j hj
      by_contra hge
      refine hcon ⟨j, hj, fun k hk => ?_⟩
      have hleast := hmin k hk
      omega
    rw [WRR_wrap_spins h hj₀ hdead h.current.1 hlight] at hrun
    cases hrun
  · rintro ⟨j, hj, hsum⟩
    have hleast := hsum m hm
    exact WRR_wrap_answers h hj₀ hdead hj (by omega)

theorem answers_WRR_iff (hn : 1 ≤ cl.server_now_) (hash_key : ℕ) : cl.Answers .WeightedRoundRobin hash_key ↔
      ∃ fuel r cl', cl.WRR_loop fuel (cl.server_iter_ % cl.server_now_) cl.current_weight_ =
        some (r, cl') ∧ cl.Right r := by
  have hne : cl.server_now_ ≠ 0 := by omega
  simp only [Answers, QLBCluster.get_server, get_server_WRR, hne, if_false, WRR_loop_mod]

/-- A call returns with the right answer EXACTLY in the schedulable states. -/
theorem WellFormed.WRR_right_iff (h : WellFormed cl) (hash_key : ℕ) :
    cl.Answers .WeightedRoundRobin hash_key ↔ cl.Schedulable := by
  have hn := h.one_server
  have hlt := Nat.mod_lt cl.server_iter_ hn
  rw [answers_WRR_iff hn]
  by_cases hahead : ∃ j, cl.HeavyAhead j
  · -- the answer is that server
    obtain ⟨k, hk⟩ := hahead
    have hrun := WRR_loop_hit h.now_le_max hk.2.1 hk.2.2.1 0
      (k - cl.server_iter_ % cl.server_now_ - 1) _ (by have := hk.1; omega) hk.2.2.2
    constructor
    · rintro ⟨fuel, r, cl', hrun', hright⟩
      cases WRR_loop_unique hrun hrun'
      exact Or.inr (Or.inl ⟨k, hk, (right_used_iff hk.2.1).mp hright⟩)
    · rintro (hpos | ⟨j, hj, hpos⟩ | ⟨hno, -⟩)
      · exact ⟨_, _, _, hrun, (right_used_iff hk.2.1).mpr (hpos k hk.2.1)⟩
      · obtain rfl := hj.unique hk
        exact ⟨_, _, _, hrun, (right_used_iff hk.2.1).mpr hpos⟩
      · exact absurd hk (hno k)
  -- the scan wraps
  have hno : ∀ j, ¬ cl.HeavyAhead j := not_exists.mp hahead
  have hpass := fun fuel => WRR_loop_pass h.now_le_max fuel
    (cl.server_now_ - 1 - cl.server_iter_ % cl.server_now_) _ (by omega) (light_ahead hno)
  have hwrap : (∃ fuel r cl', cl.WRR_loop fuel (cl.server_iter_ % cl.server_now_)
        cl.current_weight_ = some (r, cl') ∧ cl.Right r) ↔
      ∃ fuel r cl', cl.WRR_loop fuel (cl.server_now_ - 1) cl.current_weight_ = some (r, cl') ∧
        cl.Right r := by
    constructor
    · rintro ⟨fuel, r, cl', hrun, hright⟩
      exact ⟨fuel, r, cl', hpass fuel ▸ WRR_loop_mono (Nat.le_add_right _ _) hrun, hright⟩
    · rintro ⟨fuel, r, cl', hrun, hright⟩
      exact ⟨_, r, cl', (hpass fuel).trans hrun, hright⟩
  rw [hwrap]
  by_cases hpos : ∀ j, j < cl.server_now_ → 0 < cl.weight j
  · obtain ⟨fuel, k, cl', hk, hrun⟩ := WRR_loop_positive h hpos cl.current_weight_.toNat
      cl.current_weight_ h.current.1 h.current.2 (by omega)
    exact ⟨fun _ => Or.inl hpos,
      fun _ => ⟨fuel, k, cl', hrun, (right_used_iff hk).mpr (hpos k hk)⟩⟩
  simp only [not_forall, not_lt, exists_prop] at hpos
  obtain ⟨j₀, hj₀, hdead⟩ := hpos
  rw [WRR_loop_dead h hj₀ hdead]
  constructor
  · exact fun hsum => Or.inr (Or.inr ⟨hno, hsum⟩)
  · rintro (hall | ⟨j, hj, -⟩ | ⟨-, hsum⟩)
    · exact absurd (hall j₀ hj₀) (not_lt.mpr hdead)
    · exact absurd hj (hno j)
    · exact hsum

/-- **WEIGHTED ROUND ROBIN OVER EVERY RUN** of calls and weight updates: a call
    returns with the right answer exactly in the schedulable states. -/
theorem get_server_WRR_right_iff (h : Reached cl) (hash_key : ℕ) :
    cl.Answers .WeightedRoundRobin hash_key ↔ cl.Schedulable :=
  h.wellFormed.WRR_right_iff hash_key

theorem get_server_WRR_right_iff_two :
    (configured [3, 6] 0).Answers .WeightedRoundRobin 0 ↔ (configured [3, 6] 0).Schedulable :=
  get_server_WRR_right_iff (reached_configured 0 (by decide) (by decide)) 0

/-- Server 1 is down: the first call hands it out. -/
theorem get_server_WRR_dead_server :
    ¬ ∀ cl, Reached cl → ∀ hash_key, cl.Answers .WeightedRoundRobin hash_key := by
  intro h
  have hright := h (configured [5, 0] 0) (reached_configured 0 (by decide) (by decide)) 0
  have hcall : (configured [5, 0] 0).get_server 1 .WeightedRoundRobin 0 =
      some (((1 : ℕ) : ℤ), { configured [5, 0] 0 with server_iter_ := 1 }) := rfl
  rw [answers_iff hcall, right_used_iff (by decide)] at hright
  exact absurd hright (by decide)

end KalavaPir.Common.QLBCluster
