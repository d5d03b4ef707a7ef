/-
  KalavaPir.Common.QLBClusterShare — the shares of weighted round robin.

  With positive weights that stay as they are, `gcd()` is the greatest common
  divisor and the scan is a turn table: the weight `G * q i` is reached in the
  last `q i` of every `max_weight() / G` rounds.
-/
import KalavaPir.Framework.CyclicHits
import KalavaPir.Common.QLBClusterWeighted
import Mathlib.Algebra.BigOperators.Ring.Finset
import Mathlib.Tactic.Ring

namespace KalavaPir.Common.QLBCluster

open KalavaPir.Framework Int

variable {cl : QLBCluster}

/-! ## §1. Trial division. -/

theorem trial_eq {d : ℕ} (hd : 1 ≤ d) (hcommon : ∀ i, i < cl.server_now_ → (d : ℤ) ∣ cl.weight i)
    (hgreatest : ∀ e : ℤ, (∀ i, i < cl.server_now_ → e ∣ cl.weight i) → e ∣ d) :
    ∀ m : ℕ, d ≤ m → cl.trial m = d := by
  intro m
  induction m with
  | zero => intro hm; omega
  | succ m ih =>
    intro hm
    have hall : ((List.range cl.server_now_).all
        fun i => (cl.weight i).tmod ((m : ℤ) + 1) == 0) = true ↔
        ∀ i, i < cl.server_now_ → ((m : ℤ) + 1) ∣ cl.weight i := by
      simp only [List.all_eq_true, List.mem_range, beq_iff_eq, dvd_iff_tmod_eq_zero]
    rw [trial]
    by_cases hm' : ∀ i, i < cl.server_now_ → ((m : ℤ) + 1) ∣ cl.weight i
    · rw [if_pos (hall.mpr hm')]
      have hle := le_of_dvd (by omega) (hgreatest _ hm')
      omega
    rw [if_neg fun h => hm' (hall.mp h)]
    refine ih (Nat.lt_succ_iff.mp (lt_of_le_of_ne hm ?_))
    rintro rfl
    exact hm' fun i hi => by exact_mod_cast hcommon i hi

/-- **`gcd()` is the greatest common divisor** of positive weights. -/
theorem gcd_eq (hn : 1 ≤ cl.server_now_) (hpos : ∀ i, i < cl.server_now_ → 0 < cl.weight i) :
    cl.gcd = (Finset.range cl.server_now_).gcd cl.weight := by
  obtain ⟨hmin, m, hm, heq⟩ := cl.min_weight_spec hn
  have hm' := hpos m hm
  obtain ⟨d, hd⟩ : ∃ d : ℕ, (Finset.range cl.server_now_).gcd cl.weight = d :=
    ⟨_, (natAbs_of_nonneg
      (nonneg_iff_normalize_eq_self _ |>.mp Finset.normalize_gcd)).symm⟩
  have hdvd : ∀ i, i < cl.server_now_ → (d : ℤ) ∣ cl.weight i :=
    fun i hi => hd ▸ Finset.gcd_dvd (Finset.mem_range.mpr hi)
  have hgreatest : ∀ e : ℤ, (∀ i, i < cl.server_now_ → e ∣ cl.weight i) → e ∣ d :=
    fun e he => hd ▸ Finset.dvd_gcd fun i hi => he i (Finset.mem_range.mp hi)
  have hle := le_of_dvd hm' (hdvd m hm)
  have hd1 : 1 ≤ d := by
    by_contra hzero
    obtain rfl : d = 0 := by omega
    have hzero' := zero_dvd_iff.mp (show (0 : ℤ) ∣ cl.weight m from hdvd m hm)
    omega
  rw [gcd, if_neg (by omega), if_pos (by omega), hd]
  exact trial_eq hd1 hdvd hgreatest _ (by omega)

/-! ## §2. The scan as a turn table. -/

/-- The weights are the multiples `G * q i` of `gcd()`, the greatest is
    `G * L`. -/
structure Shares (cl : QLBCluster) (G : ℤ) (L : ℕ) (q : ℕ → ℕ) : Prop where
  one_server : 1 ≤ cl.server_now_
  now_le_max : cl.server_now_ ≤ cl.server_max_
  gcd : cl.gcd = G
  gcd_pos : 1 ≤ G
  weight : ∀ i, i < cl.server_now_ → cl.weight i = G * q i
  share_pos : ∀ i, i < cl.server_now_ → 1 ≤ q i
  share_le : ∀ i, i < cl.server_now_ → q i ≤ L
  max_weight : cl.max_weight = G * L
  fits : G * L ≤ INT32_MAX

theorem shares_of_positive (h : WellFormed cl) (hpos : ∀ i, i < cl.server_now_ → 0 < cl.weight i) :
    ∃ L q, Shares cl cl.gcd L q := by
  have hn := h.one_server
  have hG := QLBCluster.gcd_pos hn hpos
  have hdvd : ∀ i, i < cl.server_now_ → cl.gcd ∣ cl.weight i := by
    intro i hi
    rw [gcd_eq hn hpos]
    exact Finset.gcd_dvd (Finset.mem_range.mpr hi)
  have hweight : ∀ i, i < cl.server_now_ →
      cl.weight i = cl.gcd * ((cl.weight i / cl.gcd).toNat : ℕ) := by
    intro i hi
    have hquot : 0 ≤ cl.weight i / cl.gcd := ediv_nonneg (le_of_lt (hpos i hi)) (by omega)
    rw [Int.toNat_of_nonneg hquot, Int.mul_ediv_cancel' (hdvd i hi)]
  obtain ⟨_, m, hm, heq⟩ := max_weight_attained hn hpos
  refine ⟨(cl.weight m / cl.gcd).toNat, fun i => (cl.weight i / cl.gcd).toNat, hn, h.now_le_max,
    rfl, hG, hweight, fun i hi => ?_, fun i hi => ?_, heq.trans (hweight m hm), ?_⟩
  · have hone : 1 ≤ cl.weight i / cl.gcd :=
      (Int.le_ediv_iff_mul_le (by omega)).mpr
        (by rw [one_mul]; exact le_of_dvd (hpos i hi) (hdvd i hi))
    omega
  · exact Int.toNat_le_toNat (Int.ediv_le_ediv (by omega) (heq ▸ cl.max_weight_spec.2.1 i hi))
  · rw [← hweight m hm]
    exact (h.weights m).2

section

variable {G : ℤ} {L : ℕ} {q : ℕ → ℕ}

/-- `gcd()` reads neither the iterator nor the current weight. -/
theorem gcd_stored (cl : QLBCluster) (j : ℕ) (c : ℤ) :
    ({ cl with server_iter_ := j, current_weight_ := c } : QLBCluster).gcd = cl.gcd := by
  have htrial : ∀ m : ℕ,
      ({ cl with server_iter_ := j, current_weight_ := c } : QLBCluster).trial m = cl.trial m := by
    intro m
    induction m with
    | zero => rfl
    | succ m ih =>
      rw [trial, trial, ih]
      rfl
  unfold gcd
  rw [htrial]
  rfl

theorem Shares.stored (h : Shares cl G L q) (j : ℕ) (c : ℤ) :
    Shares { cl with server_iter_ := j, current_weight_ := c } G L q :=
  ⟨h.one_server, h.now_le_max, (gcd_stored cl j c).trans h.gcd, h.gcd_pos, h.weight, h.share_pos, h.share_le, h.max_weight,
    h.fits⟩

theorem Shares.length_pos (h : Shares cl G L q) : 1 ≤ L :=
  le_trans (h.share_pos 0 h.one_server) (h.share_le 0 h.one_server)

/-- The current weight at time `t`.  Before the first wrap it is still 0, which
    every server reaches, as in the last round of the table. -/
def Level (n : ℕ) (G : ℤ) (L : ℕ) (t : ℕ) (c : ℤ) : Prop :=
  c = G * (L - t / n % L : ℕ) ∨ (c = 0 ∧ t / n % L = L - 1)

variable {t : ℕ}

variable {c : ℤ}

/-- A server is heavy enough exactly when it is its turn. -/
theorem Level.turn_iff (h : Shares cl G L q) (hc : Level cl.server_now_ G L t c) :
    c ≤ cl.weight (t % cl.server_now_) ↔ Turn cl.server_now_ L q t := by
  have hlt := Nat.mod_lt t h.one_server
  have hG := h.gcd_pos
  rw [h.weight _ hlt]
  rcases hc with rfl | ⟨rfl, hlast⟩
  · rw [mul_le_mul_iff_of_pos_left (by omega)]
    exact ofNat_le
  have hq := h.share_pos _ hlt
  refine iff_of_true (mul_nonneg (by omega) (natCast_nonneg _)) ?_
  rw [Turn, hlast]
  omega

theorem succ_mod_cases (hL : 1 ≤ L) (r : ℕ) :
    (r % L + 1 < L ∧ (r + 1) % L = r % L + 1) ∨ (r % L = L - 1 ∧ (r + 1) % L = 0) := by
  have hlt := Nat.mod_lt r hL
  rw [← Nat.mod_add_mod]
  by_cases hlast : r % L + 1 = L
  · exact Or.inr ⟨by omega, by rw [hlast, Nat.mod_self]⟩
  · exact Or.inl ⟨by omega, Nat.mod_eq_of_lt (by omega)⟩

/-- The wrap: the next level, or the greatest weight again. -/
theorem next_weight_wrap (h : Shares cl G L q) (hc : Level cl.server_now_ G L t c) :
    cl.next_weight 0 c = some (G * (L - (t / cl.server_now_ + 1) % L : ℕ)) := by
  have hG := h.gcd_pos
  have hL := h.length_pos
  have hfits := h.fits
  -- the current weight is at most `G * L`
  have hbound : 0 ≤ c ∧ c ≤ G * L := by
    rcases hc with rfl | ⟨rfl, -⟩
    · exact ⟨mul_nonneg (by omega) (natCast_nonneg _),
        mul_le_mul_of_nonneg_left (by omega) (by omega)⟩
    · exact ⟨le_rfl, mul_nonneg (by omega) (natCast_nonneg _)⟩
  have hGL : G ≤ G * L := le_mul_of_one_le_right (by omega) (by omega)
  have hint : IsInt32 (c - cl.gcd) := by
    rw [h.gcd]
    unfold IsInt32 INT32_MIN
    unfold INT32_MAX at hfits ⊢
    omega
  refine next_weight_zero.mpr ⟨hint, ?_⟩
  rw [h.gcd, h.max_weight]
  rcases succ_mod_cases hL (t / cl.server_now_) with ⟨hmore, heq⟩ | ⟨hlast, heq⟩
  · -- a lower level
    obtain ⟨x, hx⟩ : ∃ x : ℕ, L - t / cl.server_now_ % L = x + 2 :=
      ⟨L - t / cl.server_now_ % L - 2, by omega⟩
    rcases hc with rfl | ⟨-, hlast⟩
    · have hlower : G * ((x + 2 : ℕ) : ℤ) - G = G * ((x + 1 : ℕ) : ℤ) := by
        push_cast
        ring
      have hpos : 0 < G * ((x + 1 : ℕ) : ℤ) := mul_pos (by omega) (by omega)
      rw [heq, show L - (t / cl.server_now_ % L + 1) = x + 1 by omega, hx, hlower,
        if_neg (by omega)]
    · omega
  · -- back to the top
    have hdone : c - G ≤ 0 := by
      rcases hc with rfl | ⟨rfl, -⟩
      · rw [hlast, show L - (L - 1) = 1 by omega, Nat.cast_one, mul_one, sub_self]
      · omega
    rw [heq, if_pos hdone, Nat.sub_zero]

/-- Reaching the next server, the current weight is that of its time. -/
theorem Level.next (h : Shares cl G L q) (hc : Level cl.server_now_ G L t c) :
    ∃ c', cl.next_weight ((t + 1) % cl.server_now_) c = some c' ∧
      Level cl.server_now_ G L (t + 1) c' ∧ ¬ ((t + 1) % cl.server_now_ = 0 ∧ c' = 0) := by
  have hG := h.gcd_pos
  by_cases hwrap : (t + 1) % cl.server_now_ = 0
  · have hdiv : (t + 1) / cl.server_now_ = t / cl.server_now_ + 1 := by
      rw [Nat.succ_div, if_pos (Nat.dvd_of_mod_eq_zero hwrap)]
    have hlt := Nat.mod_lt (t / cl.server_now_ + 1) h.length_pos
    refine ⟨_, by rw [hwrap]; exact next_weight_wrap h hc, Or.inl (by rw [hdiv]), ?_⟩
    rintro ⟨-, hzero⟩
    have hpos : 0 < G * (L - (t / cl.server_now_ + 1) % L : ℕ) := mul_pos (by omega) (by omega)
    omega
  · have hdiv : (t + 1) / cl.server_now_ = t / cl.server_now_ := by
      rw [Nat.succ_div, if_neg fun hd => hwrap (Nat.mod_eq_zero_of_dvd hd), Nat.add_zero]
    refine ⟨c, next_weight_of_ne hwrap c, ?_, fun hzero => hwrap hzero.1⟩
    unfold Level
    rw [hdiv]
    exact hc

/-- The loop runs on to the next turn. -/
theorem WRR_loop_turn (h : Shares cl G L q) {u : ℕ} : ∀ m t c, t + m + 1 = u → Level cl.server_now_ G L t c →
      NextHit (Turn cl.server_now_ L q) t u → ∃ c', Level cl.server_now_ G L u c' ∧
        cl.WRR_loop (m + 1) (t % cl.server_now_) c = some (((u % cl.server_now_ : ℕ) : ℤ),
            { cl with server_iter_ := u % cl.server_now_, current_weight_ := c' }) := by
  intro m
  induction m with
  | zero =>
    intro t c hu hc hnext
    obtain ⟨c', hstep, hc', hgo⟩ := hc.next h
    have hlt := Nat.mod_lt (t + 1) h.one_server
    have hmax := h.now_le_max
    subst hu
    refine ⟨c', hc', ?_⟩
    rw [WRR_loop]
    simp only [Nat.mod_add_mod, hstep]
    rw [if_neg hgo, if_neg (by omega), if_pos ((hc'.turn_iff h).mpr hnext.2.1)]
  | succ m ih =>
    intro t c hu hc hnext
    obtain ⟨c₁, hstep, hc₁, hgo⟩ := hc.next h
    have hlt := Nat.mod_lt (t + 1) h.one_server
    have hmax := h.now_le_max
    have hclosed := hnext.2.2 (t + 1) (by omega) (by omega)
    obtain ⟨c', hc', hrun⟩ := ih (t + 1) c₁ (by omega) hc₁
      ⟨by omega, hnext.2.1, fun k hk => hnext.2.2 k (by omega)⟩
    refine ⟨c', hc', ?_⟩
    rw [WRR_loop]
    simp only [Nat.mod_add_mod, hstep]
    rw [if_neg hgo, if_neg (by omega), if_neg fun hle => hclosed ((hc₁.turn_iff h).mp hle)]
    exact hrun

/-- The cluster stands at time `t` of the turn table. -/
structure AtTurn (cl : QLBCluster) (G : ℤ) (L : ℕ) (q : ℕ → ℕ) (t : ℕ) : Prop where
  shares : Shares cl G L q
  iter : cl.server_iter_ % cl.server_now_ = t % cl.server_now_
  level : Level cl.server_now_ G L t cl.current_weight_

/-- **A call moves on to the next turn** and answers whose turn it is. -/
theorem get_server_WRR_turn {u : ℕ} (h : AtTurn cl G L q t) (hnext : NextHit (Turn cl.server_now_ L q) t u) :
    ∃ fuel cl', cl.get_server_WRR fuel = some (((u % cl.server_now_ : ℕ) : ℤ), cl') ∧
      AtTurn cl' G L q u ∧ cl'.server_now_ = cl.server_now_ := by
  have hn := h.shares.one_server
  obtain ⟨c', hc', hrun⟩ := WRR_loop_turn h.shares (u - t - 1) t cl.current_weight_
    (by have := hnext.1; omega) h.level hnext
  refine ⟨u - t - 1 + 1, _, ?_, ⟨h.shares.stored _ c', Nat.mod_mod _ _, hc'⟩, rfl⟩
  rw [get_server_WRR, if_neg (by omega), ← WRR_loop_mod, h.iter]
  exact hrun

end

/-! ## §3. One call after the other. -/

/-- `result k` is the answer of call `k`, made in `state k`. -/
structure Calls (cl : QLBCluster) (state : ℕ → QLBCluster) (result : ℕ → ℤ) : Prop where
  start : state 0 = cl
  call : ∀ k, ∃ fuel, (state k).get_server_WRR fuel = some (result k, state (k + 1))

section

variable {G : ℤ} {L : ℕ} {q : ℕ → ℕ}

theorem get_server_WRR_unique {x y : ℤ × QLBCluster} {fuel fuel' : ℕ}
    (h : cl.get_server_WRR fuel = some x) (h' : cl.get_server_WRR fuel' = some y) : x = y := by
  have hx : cl.get_server fuel .WeightedRoundRobin 0 = some x := h
  exact get_server_unique hx h'

/-- A cluster at its turn can be called again and again. -/
theorem AtTurn.calls {t : ℕ} (h : AtTurn cl G L q t) : ∃ state result, Calls cl state result := by
  have hnext : ∀ s : { s : QLBCluster // ∃ t, AtTurn s G L q t },
      ∃ (s' : { s : QLBCluster // ∃ t, AtTurn s G L q t }) (r : ℤ) (fuel : ℕ),
        s.1.get_server_WRR fuel = some (r, s'.1) := by
    rintro ⟨s, t, hs⟩
    obtain ⟨u, hu⟩ := NextHit.exists_of_unbounded
      (turn_unbounded hs.shares.one_server hs.shares.length_pos hs.shares.share_pos) t
    obtain ⟨fuel, s', hcall, hs', -⟩ := get_server_WRR_turn hs hu
    exact ⟨⟨s', u, hs'⟩, _, fuel, hcall⟩
  choose next result hcall using hnext
  refine ⟨fun k => (next^[k] ⟨cl, t, h⟩).1, fun k => result (next^[k] ⟨cl, t, h⟩), rfl, ?_⟩
  intro k
  simp only [Function.iterate_succ_apply']
  exact hcall _

variable {state : ℕ → QLBCluster} {result : ℕ → ℤ}

/-- The calls go from turn to turn. -/
theorem Calls.turns (hcalls : Calls cl state result) {τ : ℕ → ℕ} (h : AtTurn cl G L q (τ 0))
    (hτ : ∀ k, NextHit (Turn cl.server_now_ L q) (τ k) (τ (k + 1))) (k : ℕ) :
    result k = (τ (k + 1) % cl.server_now_ : ℕ) := by
  have hstate : ∀ k, AtTurn (state k) G L q (τ k) ∧ (state k).server_now_ = cl.server_now_ ∧
      result k = (τ (k + 1) % cl.server_now_ : ℕ) := by
    have hstep : ∀ k, AtTurn (state k) G L q (τ k) → (state k).server_now_ = cl.server_now_ →
        AtTurn (state (k + 1)) G L q (τ (k + 1)) ∧
          (state (k + 1)).server_now_ = cl.server_now_ ∧
          result k = (τ (k + 1) % cl.server_now_ : ℕ) := by
      intro k hk hn
      obtain ⟨fuel, s', hcall, hs', hnow⟩ := get_server_WRR_turn hk (hn.symm ▸ hτ k)
      obtain ⟨fuel', hcall'⟩ := hcalls.call k
      have heq := get_server_WRR_unique hcall' hcall
      simp only [Prod.mk.injEq] at heq
      rw [heq.1, heq.2, hnow, hn]
      exact ⟨hs', rfl, rfl⟩
    intro k
    induction k with
    | zero =>
      have h₀ : AtTurn (state 0) G L q (τ 0) := hcalls.start.symm ▸ h
      have hn : (state 0).server_now_ = cl.server_now_ := by rw [hcalls.start]
      exact ⟨h₀, hn, (hstep 0 h₀ hn).2.2⟩
    | succ k ih =>
      obtain ⟨hk, hn, -⟩ := ih
      obtain ⟨hk', hn', -⟩ := hstep k hk hn
      exact ⟨hk', hn', (hstep (k + 1) hk' hn').2.2⟩
  exact (hstate k).2.2

/-- Before the first wrap the cluster stands in the last round of the table. -/
theorem Shares.atTurn (h : Shares cl G L q) (hcur : cl.current_weight_ = 0) :
    ∃ t, AtTurn cl G L q t ∧ Turn cl.server_now_ L q t := by
  have hL := h.length_pos
  have hlt := Nat.mod_lt cl.server_iter_ h.one_server
  have hround : (cl.server_now_ * (L - 1) + cl.server_iter_ % cl.server_now_) /
      cl.server_now_ % L = L - 1 := by
    rw [Nat.mul_add_div h.one_server, Nat.div_eq_of_lt hlt, Nat.add_zero,
      Nat.mod_eq_of_lt (by omega)]
  have hlevel : Level cl.server_now_ G L
      (cl.server_now_ * (L - 1) + cl.server_iter_ % cl.server_now_) cl.current_weight_ :=
    Or.inr ⟨hcur, hround⟩
  refine ⟨_, ⟨h, ?_, hlevel⟩, ?_⟩
  · rw [Nat.mul_add_mod, Nat.mod_mod]
  · rw [← hlevel.turn_iff h, hcur, h.weight _ (Nat.mod_lt _ h.one_server)]
    exact mul_nonneg (by have := h.gcd_pos; omega) (natCast_nonneg _)

/-- In as many calls as the shares add up to, each server gets its share. -/
theorem Shares.count_calls (h : Shares cl G L q) (hcur : cl.current_weight_ = 0)
    (hcalls : Calls cl state result) (k : ℕ) {i : ℕ} (hi : i < cl.server_now_) :
    Nat.count (fun j => result (k + j) = i) (∑ m ∈ Finset.range cl.server_now_, q m) = q i := by
  obtain ⟨t, ht, hturn⟩ := h.atTurn hcur
  choose next hnext using NextHit.exists_of_unbounded
    (turn_unbounded h.one_server h.length_pos h.share_pos)
  have hvisits : Visits (Turn cl.server_now_ L q) (fun k => next^[k] t) := by
    refine ⟨hturn, fun k => ?_⟩
    simp only [Function.iterate_succ_apply']
    exact hnext _
  have hresult : ∀ k, result k = (next^[k + 1] t % cl.server_now_ : ℕ) :=
    hcalls.turns ht hvisits.next
  -- the answers of calls `k, k + 1, …` are the places of the turns from `k + 1` on
  have hkind : ∀ j, result (k + j) = (i : ℤ) ↔
      (Turn cl.server_now_ L q (next^[k + 1 + j] t) ∧ next^[k + 1 + j] t % cl.server_now_ = i) := by
    intro j
    rw [hresult (k + j), show k + j + 1 = k + 1 + j by omega, ofNat_inj]
    exact (and_iff_right (hvisits.hit _)).symm
  have hblock := hvisits.count_block (Q := fun u => Turn cl.server_now_ L q u ∧
    u % cl.server_now_ = i) (fun _ hu => hu.1) (turn_periodic h.one_server)
    (turn_at_periodic h.one_server i) (k + 1)
  rw [count_turns h.one_server h.share_le, count_turn h.one_server hi (h.share_le i hi)] at hblock
  simp only [hkind]
  exact hblock

end

/-- **WEIGHTED ROUND ROBIN IS PROPORTIONAL.**  Positive weights that stay as
    they are: the cluster can be called for ever, and in any `W / g` calls in a
    row, before the first wrap or after it, server `i` is answered exactly
    `weight i / g` times. -/
theorem get_server_WRR_shares (h : WellFormed cl) (hcur : cl.current_weight_ = 0)
    (hpos : ∀ i, i < cl.server_now_ → 0 < cl.weight i) :
    (∃ state result, Calls cl state result) ∧
    ∀ state result, Calls cl state result → ∀ k i, i < cl.server_now_ →
      (Nat.count (fun j => result (k + j) = i)
        ((∑ m ∈ Finset.range cl.server_now_, cl.weight m) /
          (Finset.range cl.server_now_).gcd cl.weight).toNat : ℤ) =
      cl.weight i / (Finset.range cl.server_now_).gcd cl.weight := by
  obtain ⟨L, q, hshares⟩ := shares_of_positive h hpos
  have hG := hshares.gcd_pos
  rw [← gcd_eq h.one_server hpos]
  constructor
  · obtain ⟨t, ht, -⟩ := hshares.atTurn hcur
    exact ht.calls
  · intro state result hcalls k i hi
    have hsum : ∑ m ∈ Finset.range cl.server_now_, cl.weight m =
        cl.gcd * ((∑ m ∈ Finset.range cl.server_now_, q m : ℕ) : ℤ) := by
      rw [Nat.cast_sum, Finset.mul_sum]
      exact Finset.sum_congr rfl fun m hm => hshares.weight m (Finset.mem_range.mp hm)
    rw [hsum, hshares.weight i hi, Int.mul_ediv_cancel_left _ (by omega),
      Int.mul_ediv_cancel_left _ (by omega), Int.toNat_natCast,
      hshares.count_calls hcur hcalls k hi]

/-- Weights 4, 2 and 6: of any six calls the servers get two, one and three. -/
theorem get_server_WRR_shares_three :
    ∃ state result, Calls (configured [4, 2, 6] 0) state result ∧ ∀ k i,
      i < (configured [4, 2, 6] 0).server_now_ →
      (Nat.count (fun j => result (k + j) = i)
        ((∑ m ∈ Finset.range (configured [4, 2, 6] 0).server_now_,
            (configured [4, 2, 6] 0).weight m) /
          (Finset.range (configured [4, 2, 6] 0).server_now_).gcd
            (configured [4, 2, 6] 0).weight).toNat : ℤ) =
      (configured [4, 2, 6] 0).weight i /
        (Finset.range (configured [4, 2, 6] 0).server_now_).gcd (configured [4, 2, 6] 0).weight := by
  have hreached : Reached (configured [4, 2, 6] 0) :=
    reached_configured 0 (by decide) (by decide)
  have hshares := get_server_WRR_shares hreached.wellFormed rfl (by decide)
  obtain ⟨state, result, hcalls⟩ := hshares.1
  exact ⟨state, result, hcalls, hshares.2 state result hcalls⟩

end KalavaPir.Common.QLBCluster
