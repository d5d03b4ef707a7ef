/-
  KalavaPir.Common.QRecursion — the recursive sorts of `common/qalgorithm.h`, and
  what becomes of them with a stack of their own.

  `Q_Recursion_1K`, `Q_Recursion_1K_1P` and `Q_Recursion_1K_2P` differ in the
  arrays that are permuted along with the keys.  All of them compute
  `(lBegin+lEnd)>>1` in 32 bits, for every range that they partition: the right
  part of a range begins above its `lBegin`, and its sum can be no `int32_t`
  when the sum of the whole range still was.
-/
import KalavaPir.Framework.TaskStack
import KalavaPir.Common.QUnrecursion

namespace KalavaPir.Common

open KalavaPir.Framework

variable {K P Q : Type} [LinearOrder K]

/-! ## §1. The sorts with fewer arrays. -/

/-- The keys with one other array. -/
def withPayload (tKey_1 : ℤ → K) (tKey_2 : ℤ → P) : Parallel K P Unit :=
  ⟨tKey_1, tKey_2, fun _ => ()⟩

/-- qalgorithm.h:560 -/
def Q_Recursion_1K (fuel : ℕ) (lBegin lEnd : ℤ) (tKey_1 : ℤ → K) : Option (ℤ → K) :=
  (Q_Recursion_1K_2P fuel lBegin lEnd (keysOf tKey_1)).map Parallel.tKey_1

/-- qalgorithm.h:890 -/
def Q_Recursion_1K_1P (fuel : ℕ) (lBegin lEnd : ℤ) (tKey_1 : ℤ → K) (tKey_2 : ℤ → P) :
    Option ((ℤ → K) × (ℤ → P)) :=
  (Q_Recursion_1K_2P fuel lBegin lEnd (withPayload tKey_1 tKey_2)).map fun s => (s.tKey_1, s.tKey_2)

/-- qalgorithm.h:945, with a stack of `size` cells (they are `1<<10`). -/
def Q_Unrecursion_1K_1P (size : ℕ) (lBegin lEnd : ℤ) (tKey_1 : ℤ → K) (tKey_2 : ℤ → P) :
    SortRun ((ℤ → K) × (ℤ → P)) :=
  match Q_Unrecursion size (2 * (lEnd - lBegin).toNat + 2) [(lBegin, lEnd)]
      (withPayload tKey_1 tKey_2) with
  | .running => .running
  | .faults => .faults
  | .returns s => .returns (s.tKey_1, s.tKey_2)

/-! ## §2. Sorting on unbounded integers. -/

/-- The ranges that a sort of `tKey_1` from `lBegin` to `lEnd` comes to. -/
def rangesOf (lBegin lEnd : ℤ) (tKey_1 : ℤ → K) : List (ℤ × ℤ) :=
  visits sortStep (2 * (lEnd - lBegin).toNat + 2) [(lBegin, lEnd)] (keysOf tKey_1)

/-- **The sums fit**: no range that is partitioned is too far up. -/
def SumsFit (lBegin lEnd : ℤ) (tKey_1 : ℤ → K) : Prop := ∀ R ∈ rangesOf lBegin lEnd tKey_1, SumFits R

instance (lBegin lEnd : ℤ) (tKey_1 : ℤ → K) : Decidable (SumsFit lBegin lEnd tKey_1) :=
  inferInstanceAs (Decidable (∀ R ∈ rangesOf lBegin lEnd tKey_1, SumFits R))

/-! ## §3. The other arrays do not steer the sort. -/

theorem partRound_keys (mid : K) (p : PartState K P Q) :
    partRound mid { items := keysOf p.items.tKey_1, lBegin := p.lBegin, lEnd := p.lEnd } =
      { items := keysOf (partRound mid p).items.tKey_1, lBegin := (partRound mid p).lBegin
        lEnd := (partRound mid p).lEnd } := by
  unfold partRound
  dsimp only [keysOf]
  split
  · rfl
  · rfl

theorem partLoop_keys (mid : K) (k : ℕ) : ∀ p : PartState K P Q,
    partLoop mid k { items := keysOf p.items.tKey_1, lBegin := p.lBegin, lEnd := p.lEnd } =
      { items := keysOf (partLoop mid k p).items.tKey_1, lBegin := (partLoop mid k p).lBegin
        lEnd := (partLoop mid k p).lEnd } := by
  induction k with
  | zero => exact fun _ => rfl
  | succ k ih =>
    intro p
    unfold partLoop
    by_cases hlt : p.lBegin < p.lEnd
    · rw [if_pos hlt, if_pos hlt, partRound_keys]
      exact ih (partRound mid p)
    · rw [if_neg hlt, if_neg hlt]

theorem sortStep_keys (R : ℤ × ℤ) (s : Parallel K P Q) :
    sortStep R (keysOf s.tKey_1) = (keysOf (sortStep R s).1.tKey_1, (sortStep R s).2) := by
  obtain ⟨m, n⟩ := R
  by_cases hle : m ≥ n
  · rw [sortStep_small hle, sortStep_small hle]
  by_cases htwo : m + 1 = n
  · subst htwo
    rw [sortStep_two, sortStep_two]
    show (if s.tKey_1 m > s.tKey_1 (m + 1) then _ else _, _) = _
    split
    · rfl
    · rfl
  -- the comparisons are all between keys
  have hkeys : partition (keysOf s.tKey_1) m n ((m + n) / 2) = _ :=
    partLoop_keys (s.tKey_1 ((m + n) / 2)) (n - m).toNat { items := s, lBegin := m, lEnd := n }
  rw [sortStep_more hle htwo, sortStep_more hle htwo, hkeys]
  rfl

theorem visits_keys (k : ℕ) (stack_buf : List (ℤ × ℤ)) (s : Parallel K P Q) :
    visits sortStep k stack_buf (keysOf s.tKey_1) = visits sortStep k stack_buf s :=
  visits_map (fun s : Parallel K P Q => keysOf s.tKey_1) sortStep_keys k stack_buf s

/-! ## §4. The sorts are one recursion. -/

theorem Q_Recursion_1K_2P_more {m n : ℤ} (hle : ¬ m ≥ n) (htwo : m + 1 ≠ n)
    (hmid : wrap32 (m + n) / 2 = (m + n) / 2) (hpos : ¬ (m + n) / 2 < 0) (fuel : ℕ)
    (s : Parallel K P Q) : Q_Recursion_1K_2P (fuel + 1) m n s = (let p := partition s m n ((m + n) / 2)
      let l := pastMiddle p (s.tKey_1 ((m + n) / 2))
      (if l - 1 > m then Q_Recursion_1K_2P fuel m (l - 1) p.items else some p.items).bind fun s =>
        if p.lEnd < n then Q_Recursion_1K_2P fuel p.lEnd n s else some s) := by
  conv_lhs => unfold Q_Recursion_1K_2P
  rw [if_neg hle, if_neg htwo]
  rw [hmid, if_neg hpos]
  rfl

/-- A call of a recursive sort, as its range decides: too short to have a middle, with
    a middle, or with a sum that has wrapped around. -/
structure CallsParts {σ : Type} (sort : ℕ → ℤ → ℤ → σ → Option σ)
    (step : ℤ × ℤ → σ → σ × List (ℤ × ℤ)) : Prop where
  no_fuel : ∀ (m n : ℤ) (s : σ), sort 0 m n s = none
  short : ∀ (fuel : ℕ) {m n : ℤ} (s : σ), n ≤ m + 1 →
    ∃ s', sort (fuel + 1) m n s = some s' ∧ step (m, n) s = (s', [])
  parts : ∀ (fuel : ℕ) {m n : ℤ} (s : σ), 0 ≤ m → m + 1 < n → wrap32 (m + n) / 2 = (m + n) / 2 →
    ∃ s' l r, step (m, n) s = (s', partsOf m n l r) ∧ m < r ∧ l ≤ n ∧
      sort (fuel + 1) m n s = (if l - 1 > m then sort fuel m (l - 1) s' else some s').bind fun s =>
        if r < n then sort fuel r n s else some s
  wraps : ∀ (fuel : ℕ) {m n : ℤ} (s : σ), m + 1 < n → wrap32 (m + n) / 2 < 0 →
    sort (fuel + 1) m n s = none

/-- **Such a sort** is the recursion over its parts, behind the guard. -/
theorem CallsParts.eq {σ : Type} {sort : ℕ → ℤ → ℤ → σ → Option σ}
    {step : ℤ × ℤ → σ → σ × List (ℤ × ℤ)} (h : CallsParts sort step) (fuel : ℕ) :
    ∀ {m n : ℤ} (s : σ), 0 ≤ m → n < 2 ^ 31 →
      sort fuel m n s = recur (guarded SumFits step) fuel (m, n) s := by
  induction fuel with
  | zero => exact fun s _ _ => h.no_fuel _ _ s
  | succ fuel ih =>
    intro m n s hm hn
    rw [recur, guarded]
    by_cases hshort : n ≤ m + 1
    · have hfit : SumFits (m, n) := fun hlt => absurd hlt (not_lt.mpr hshort)
      obtain ⟨s', hsort, hstep⟩ := h.short fuel s hshort
      rw [if_pos hfit, hsort, hstep]
      rfl
    obtain ⟨hsum, hmid⟩ | ⟨hsum, hneg⟩ := middle_cases hm (by omega) hn
    · have hfit : SumFits (m, n) := fun _ => hsum
      obtain ⟨s', l, r, hstep, hr, hl, hsort⟩ := h.parts fuel s hm (not_le.mp hshort) hmid
      rw [if_pos hfit, hsort, hstep]
      -- the two calls, each of them if its part is not too short
      rw [Option.bind_some, partsOf, inTurn_append, inTurn_ite]
      have hright : (fun s₁ : σ => if r < n then sort fuel r n s₁ else some s₁) =
          inTurn (recur (guarded SumFits step) fuel) (if r < n then [(r, n)] else []) := by
        funext s₁
        rw [inTurn_ite, ih s₁ (by omega) hn]
      rw [hright, ih s' hm (by omega)]
    · -- the sum has wrapped around to a negative middle
      have hbad : ¬ SumFits (m, n) := fun hfit => by
        have hless := hfit (not_le.mp hshort)
        omega
      rw [if_neg hbad, h.wraps fuel s (not_le.mp hshort) hneg]
      rfl

theorem callsParts_1K_2P : CallsParts (Q_Recursion_1K_2P (K := K) (P := P) (Q := Q)) sortStep where
  no_fuel _ _ _ := rfl
  short fuel m n s hshort := by
    by_cases hle : m ≥ n
    · rw [sortStep_small hle, Q_Recursion_1K_2P, if_pos hle]
      exact ⟨s, rfl, rfl⟩
    · obtain rfl : n = m + 1 := by omega
      rw [sortStep_two, Q_Recursion_1K_2P, if_neg hle, if_pos rfl, ← apply_ite some]
      exact ⟨_, rfl, rfl⟩
  parts fuel m n s hm hmore hmid := by
    have hp := partition_parted s (by omega : m < (m + n) / 2) (by omega : (m + n) / 2 < n)
    have hlower := hp.lower
    have hupper := hp.upper
    have hl := hp.parts.imp_right fun h => And.intro h.1 h.2.1
    have hle : ¬ m ≥ n := by omega
    have htwo : m + 1 ≠ n := by omega
    exact ⟨_, _, _, sortStep_more hle htwo, hlower, by omega,
      Q_Recursion_1K_2P_more hle htwo hmid (by omega) fuel s⟩
  wraps fuel m n s hmore hneg := by
    rw [Q_Recursion_1K_2P, if_neg (by omega), if_neg (by omega)]
    exact if_pos hneg

/-- **The recursive sort** calls itself for the parts, behind the guard. -/
theorem Q_Recursion_1K_2P_eq (fuel : ℕ) {m n : ℤ} (s : Parallel K P Q) (hm : 0 ≤ m)
    (hn : n < 2 ^ 31) : Q_Recursion_1K_2P fuel m n s = recur (guarded SumFits sortStep) fuel (m, n) s :=
  callsParts_1K_2P.eq fuel s hm hn

/-- **The sort with a stack** drains it, behind the guard, while there is slack. -/
theorem Q_Unrecursion_eq {s₀ : Parallel K P Q} {B E : ℤ} {size : ℕ} (hB : 0 ≤ B) (hE : E < 2 ^ 31)
    (fuel : ℕ) : ∀ {stack_buf : List (ℤ × ℤ)} {s : Parallel K P Q}, StackAt s₀ s B E stack_buf →
      Slack size stack_buf → ∀ s', Q_Unrecursion size fuel stack_buf s = .returns s' ↔
        drain (guarded SumFits sortStep) fuel stack_buf s = some s' := by
  induction fuel with
  | zero => exact fun _ _ _ => iff_of_false (fun h => by cases h) (fun h => by cases h)
  | succ fuel ih =>
    intro stack_buf s h hslack s'
    cases stack_buf with
    | nil =>
      rw [Q_Unrecursion, drain, SortRun.returns.injEq, Option.some.injEq]
    | cons R stack_buf =>
      obtain ⟨m, n⟩ := R
      rw [drain, guarded]
      obtain ⟨hfit, hround⟩ | ⟨hbad, hfault⟩ := Q_Unrecursion_round_slack hB hE h hslack
      · rw [hround, if_pos hfit, Option.bind_some]
        exact ih h.step (hslack.step s) s'
      · rw [hfault, if_neg hbad]
        exact iff_of_false (fun h => by cases h) (fun h => by cases h)

/-! ## §5. The sums fit. -/

section SumsFit

variable {lBegin lEnd : ℤ}

theorem sumsFit_of_drain {s s' : Parallel K P Q} {k : ℕ}
    (h : drain (guarded SumFits sortStep) k [(lBegin, lEnd)] s = some s') : SumsFit lBegin lEnd s.tKey_1 := by
  unfold SumsFit rangesOf
  rw [visits_keys]
  exact ok_of_drain h _

theorem drain_of_sumsFit {s : Parallel K P Q} (h : SumsFit lBegin lEnd s.tKey_1) :
    ∃ s', drain (guarded SumFits sortStep) (2 * (lEnd - lBegin).toNat + 2) [(lBegin, lEnd)] s = some s' := by
  unfold SumsFit rangesOf at h
  rw [visits_keys] at h
  exact drain_of_ok sortStep_cost _ (cost_lt_fuel lBegin lEnd) h

/-- **The recursive sort returns if and only if the sums fit.** -/
theorem Q_Recursion_returns_iff (hB : 0 ≤ lBegin) (hE : lEnd < 2 ^ 31) (s : Parallel K P Q) :
    (∃ fuel s', Q_Recursion_1K_2P fuel lBegin lEnd s = some s') ↔ SumsFit lBegin lEnd s.tKey_1 := by
  constructor
  · rintro ⟨fuel, s', h⟩
    rw [Q_Recursion_1K_2P_eq fuel s hB hE] at h
    obtain ⟨k, hk⟩ := drain_iff_recur.mpr ⟨fuel, h⟩
    exact sumsFit_of_drain hk
  -- the loop on unbounded integers ends, and with it the recursion
  · intro h
    obtain ⟨s', hs'⟩ := drain_of_sumsFit h
    obtain ⟨fuel, hfuel⟩ := drain_iff_recur.mp ⟨_, hs'⟩
    exact ⟨fuel, s', (Q_Recursion_1K_2P_eq fuel s hB hE).trans hfuel⟩

/-! ## §6. The sort of whole records. -/

/-- **THE SORT RETURNS, AND SORTS WHOLE RECORDS, IF AND ONLY IF THE SUMS FIT**;
    without the other arrays as well. -/
theorem Q_Recursion_sorts_iff (hB : 0 ≤ lBegin) (hsum : lBegin + lEnd < 2 ^ 31)
    (s : Parallel K P Q) :
    ((∃ fuel s', Q_Recursion_1K_2P fuel lBegin lEnd s = some s' ∧ SortsRange s s' lBegin lEnd) ↔
      SumsFit lBegin lEnd s.tKey_1) ∧
    ((∃ fuel tKey_1', Q_Recursion_1K fuel lBegin lEnd s.tKey_1 = some tKey_1' ∧
        ∃ π, Moves lBegin lEnd π ∧ tKey_1' = s.tKey_1 ∘ π ∧ SortedOn tKey_1' lBegin lEnd) ↔
      SumsFit lBegin lEnd s.tKey_1) := by
  have hE : lEnd < 2 ^ 31 := by omega
  refine ⟨⟨?_, ?_⟩, ⟨?_, ?_⟩⟩
  · rintro ⟨fuel, s', h, -⟩
    exact (Q_Recursion_returns_iff hB hE s).mp ⟨fuel, s', h⟩
  · intro h
    obtain ⟨fuel, s', hs'⟩ := (Q_Recursion_returns_iff hB hE s).mpr h
    exact ⟨fuel, s', hs', Q_Recursion_1K_2P_sorts fuel hB hE hs'⟩
  · rintro ⟨fuel, tKey_1', h, -⟩
    obtain ⟨s', hs', -⟩ := Option.map_eq_some_iff.mp h
    exact (Q_Recursion_returns_iff hB hE (keysOf s.tKey_1)).mp ⟨fuel, s', hs'⟩
  · intro h
    obtain ⟨fuel, s', hs'⟩ := (Q_Recursion_returns_iff hB hE (keysOf s.tKey_1)).mpr h
    obtain ⟨π, hπ, rfl, hsorted⟩ := Q_Recursion_1K_2P_sorts fuel hB hE hs'
    exact ⟨fuel, _, Option.map_eq_some_iff.mpr ⟨_, hs', rfl⟩, π, hπ, rfl, hsorted⟩

end SumsFit

theorem Q_Recursion_sorts_iff_three : ∃ fuel s',
    Q_Recursion_1K_2P fuel 0 2 (⟨fun i => -i, id, id⟩ : Parallel ℤ ℤ ℤ) = some s' ∧
      SortsRange ⟨fun i => -i, id, id⟩ s' 0 2 :=
  (Q_Recursion_sorts_iff (by decide) (by decide)
    (⟨fun i => -i, id, id⟩ : Parallel ℤ ℤ ℤ)).1.mpr (by decide)

/-- Four keys in ascending order: the sum of their ends is an `int32_t`, that of
    the right part is not. -/
theorem Q_Recursion_ascending_faults : (1073741822 : ℤ) + 1073741825 < 2 ^ 31 ∧
    ¬ ∃ fuel s', Q_Recursion_1K_2P fuel 1073741822 1073741825 (keysOf (id : ℤ → ℤ)) = some s' := by
  refine ⟨by decide, ?_⟩
  have hbad : ¬ SumsFit 1073741822 1073741825 (id : ℤ → ℤ) := by decide
  rw [Q_Recursion_returns_iff (by decide) (by decide)]
  exact hbad

/-! ## §7. The same with a stack. -/

section Stack

variable {lBegin lEnd : ℤ} {size : ℕ}

/-- A stack with two cells for each step of the range is not too small. -/
theorem Q_Unrecursion_returns_iff (hB : 0 ≤ lBegin) (hE : lEnd < 2 ^ 31)
    (hsize : 2 * (lEnd - lBegin).toNat + 2 ≤ size) (fuel : ℕ) (s s' : Parallel K P Q) :
    Q_Unrecursion size fuel [(lBegin, lEnd)] s = .returns s' ↔
      drain (guarded SumFits sortStep) fuel [(lBegin, lEnd)] s = some s' := by
  by_cases hlt : lBegin < lEnd
  · exact Q_Unrecursion_eq hB hE fuel (StackAt.start s lBegin lEnd) (slack_start hlt (by omega)) s'
  -- nothing to sort
  have hfit : SumFits (lBegin, lEnd) := fun hmore => absurd hmore (by simp only; omega)
  cases fuel with
  | zero => exact iff_of_false (fun h => by cases h) (fun h => by cases h)
  | succ fuel =>
    rw [Q_Unrecursion, if_pos (not_lt.mp hlt), drain, guarded, if_pos hfit,
      sortStep_small (not_lt.mp hlt), Option.bind_some]
    cases fuel with
    | zero => exact iff_of_false (fun h => by cases h) (fun h => by cases h)
    | succ fuel =>
      show SortRun.returns s = _ ↔ some s = _
      rw [SortRun.returns.injEq, Option.some.injEq]

/-- The sort with a stack and the recursive sort return the same. -/
theorem Q_Unrecursion_iff_recursion (hB : 0 ≤ lBegin) (hE : lEnd < 2 ^ 31)
    (hsize : 2 * (lEnd - lBegin).toNat + 2 ≤ size) (s s' : Parallel K P Q) :
    Q_Unrecursion size (2 * (lEnd - lBegin).toNat + 2) [(lBegin, lEnd)] s = .returns s' ↔
      ∃ fuel, Q_Recursion_1K_2P fuel lBegin lEnd s = some s' := by
  rw [Q_Unrecursion_returns_iff hB hE hsize]
  constructor
  · intro h
    obtain ⟨fuel, hfuel⟩ := drain_iff_recur.mp ⟨_, h⟩
    exact ⟨fuel, (Q_Recursion_1K_2P_eq fuel s hB hE).trans hfuel⟩
  · rintro ⟨fuel, h⟩
    rw [Q_Recursion_1K_2P_eq fuel s hB hE] at h
    obtain ⟨k, hk⟩ := drain_iff_recur.mpr ⟨fuel, h⟩
    -- the rounds that the loop may take are enough
    obtain ⟨s₁, hs₁⟩ := drain_of_sumsFit (sumsFit_of_drain hk)
    rw [drain_unique hk hs₁]
    exact hs₁

theorem Q_Unrecursion_1K_1P_eq_returns {tKey_1 : ℤ → K} {tKey_2 : ℤ → P} {out : (ℤ → K) × (ℤ → P)} :
    Q_Unrecursion_1K_1P size lBegin lEnd tKey_1 tKey_2 = .returns out ↔
      ∃ s, Q_Unrecursion size (2 * (lEnd - lBegin).toNat + 2) [(lBegin, lEnd)]
        (withPayload tKey_1 tKey_2) = .returns s ∧ (s.tKey_1, s.tKey_2) = out := by
  unfold Q_Unrecursion_1K_1P
  split
  next hrun => exact ⟨nofun, fun ⟨s, hs, _⟩ => absurd (hrun.symm.trans hs) nofun⟩
  next hrun => exact ⟨nofun, fun ⟨s, hs, _⟩ => absurd (hrun.symm.trans hs) nofun⟩
  next s hrun =>
    rw [SortRun.returns.injEq]
    constructor
    · exact fun h => ⟨s, hrun, h⟩
    · rintro ⟨s', hs', h⟩
      obtain rfl : s = s' := SortRun.returns.inj (hrun.symm.trans hs')
      exact h

/-- **THE SORT WITH A STACK RETURNS WHAT THE RECURSIVE SORT RETURNS**, keys and
    payloads; and they return if and only if the sums fit. -/
theorem Q_Unrecursion_same_iff (hB : 0 ≤ lBegin) (hE : lEnd < 2 ^ 31)
    (hsize : 2 * (lEnd - lBegin).toNat + 2 ≤ size) (tKey_1 : ℤ → K) (tKey_2 : ℤ → P) :
    (∀ out, Q_Unrecursion_1K_1P size lBegin lEnd tKey_1 tKey_2 = .returns out ↔
      ∃ fuel, Q_Recursion_1K_1P fuel lBegin lEnd tKey_1 tKey_2 = some out) ∧
    ((∃ out, Q_Unrecursion_1K_1P size lBegin lEnd tKey_1 tKey_2 = .returns out ∧
        ∃ fuel, Q_Recursion_1K_1P fuel lBegin lEnd tKey_1 tKey_2 = some out) ↔
      SumsFit lBegin lEnd tKey_1) := by
  have hsame : ∀ out, Q_Unrecursion_1K_1P size lBegin lEnd tKey_1 tKey_2 = .returns out ↔
      ∃ fuel, Q_Recursion_1K_1P fuel lBegin lEnd tKey_1 tKey_2 = some out := by
    intro out
    rw [Q_Unrecursion_1K_1P_eq_returns]
    constructor
    · rintro ⟨s, hs, hout⟩
      obtain ⟨fuel, hfuel⟩ := (Q_Unrecursion_iff_recursion hB hE hsize _ s).mp hs
      exact ⟨fuel, Option.map_eq_some_iff.mpr ⟨s, hfuel, hout⟩⟩
    · rintro ⟨fuel, h⟩
      obtain ⟨s, hs, hout⟩ := Option.map_eq_some_iff.mp h
      exact ⟨s, (Q_Unrecursion_iff_recursion hB hE hsize _ s).mpr ⟨fuel, hs⟩, hout⟩
  refine ⟨hsame, ?_⟩
  have hreturns := Q_Recursion_returns_iff hB hE (withPayload tKey_1 tKey_2)
  constructor
  · rintro ⟨out, -, fuel, h⟩
    obtain ⟨s, hs, -⟩ := Option.map_eq_some_iff.mp h
    exact hreturns.mp ⟨fuel, s, hs⟩
  · intro h
    obtain ⟨fuel, s, hs⟩ := hreturns.mpr h
    have hrec : ∃ fuel, Q_Recursion_1K_1P fuel lBegin lEnd tKey_1 tKey_2 = some (s.tKey_1, s.tKey_2) :=
      ⟨fuel, Option.map_eq_some_iff.mpr ⟨s, hs, rfl⟩⟩
    exact ⟨_, (hsame _).mpr hrec, hrec⟩

end Stack

/-- Equal keys keep their payloads apart. -/
theorem Q_Unrecursion_same_iff_three : ∃ out,
    Q_Unrecursion_1K_1P 6 0 2 (fun _ => (0 : ℤ)) (id : ℤ → ℤ) = .returns out ∧
      ∃ fuel, Q_Recursion_1K_1P fuel 0 2 (fun _ => (0 : ℤ)) (id : ℤ → ℤ) = some out :=
  (Q_Unrecursion_same_iff (by decide) (by decide) (by decide) (fun _ => (0 : ℤ)) id).2.mpr (by decide)

/-- Three elements above 2³⁰: neither of the two ends, whatever the stack. -/
theorem Q_Unrecursion_neither_ends : ¬ ∃ out : (ℤ → ℤ) × (ℤ → ℤ),
    (∃ size, Q_Unrecursion_1K_1P size 1073741824 1073741826 id id = .returns out) ∨
      ∃ fuel, Q_Recursion_1K_1P fuel 1073741824 1073741826 id id = some out := by
  rintro ⟨out, ⟨size, h⟩ | ⟨fuel, h⟩⟩
  · cases h
  · obtain ⟨s, hs, -⟩ := Option.map_eq_some_iff.mp h
    have hbad : ¬ SumsFit 1073741824 1073741826 (id : ℤ → ℤ) := by decide
    exact hbad ((Q_Recursion_returns_iff (by decide) (by decide) (withPayload id id)).mp ⟨fuel, s, hs⟩)

end KalavaPir.Common
