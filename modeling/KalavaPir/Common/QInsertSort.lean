/-
  KalavaPir.Common.QInsertSort — binary insertion, `common/qalgorithm.h`.

  `Q_Insert_Sort` looks for the place of `v[i]` among the elements in front of it,
  which are sorted, and moves those behind the place one position up.  The sums
  `low+high` and the counters are `int32_t`: an overflow is undefined (`none`).

  The range that the search gets to depends only on how many of the elements in
  front of `v[i]` are not greater.
-/
import KalavaPir.Framework.StableRange
import KalavaPir.Common.Int32

namespace KalavaPir.Common

open KalavaPir.Framework Function

variable {A K : Type} [LinearOrder K]

/-! ## §1. `Q_Insert_Sort` (qalgorithm.h:158). -/

section Source

variable (key : A → K)

/-- `while(low<=high) { … }`, where the number is at least `high-low+1`. -/
def bisect (v : ℤ → A) (temp : A) : ℕ → ℤ → ℤ → Option ℤ
  | 0, low, _ => some low
  | k + 1, low, high =>
    if low ≤ high then
      (int32 (low + high)).bind fun sum =>
        let middle := sum.tdiv 2
        if key temp < key (v middle) then bisect v temp k low (middle - 1)
        else bisect v temp k (middle + 1) high
    else some low

/-- `for(k=i-1; k>=low; --k) v[k+1]=v[k];`, where the number is `i-low`. -/
def shiftUp : ℕ → ℤ → (ℤ → A) → ℤ → A
  | 0, _, v => v
  | n + 1, k, v => shiftUp n (k - 1) (update v (k + 1) (v k))

/-- `for(; i<=lEnd; ++i) { … }`, where the number is at least `lEnd-i+1`. -/
def insertRounds (lBegin lEnd : ℤ) : ℕ → ℤ → (ℤ → A) → Option (ℤ → A)
  | 0, _, v => some v
  | n + 1, i, v =>
    if i ≤ lEnd then
      (bisect key v (v i) (i - lBegin).toNat lBegin (i - 1)).bind fun low =>
        (int32 (i + 1)).bind fun i' =>
          insertRounds lBegin lEnd n i'
            (update (shiftUp (i - low).toNat (i - 1) v) low (v i))
    else some v

/-- Every element moves down to its place. -/
def Q_Insert_Sort (v : ℤ → A) (lBegin lEnd : ℤ) : Option (ℤ → A) :=
  (int32 (lBegin + 1)).bind fun i => insertRounds key lBegin lEnd (lEnd - lBegin).toNat i v

end Source

/-! ## §2. The sums of the search. -/

/-- The ranges that the search for the place `p` comes to on unbounded integers. -/
def bisectRanges (p : ℤ) : ℕ → ℤ → ℤ → List (ℤ × ℤ)
  | 0, _, _ => []
  | k + 1, low, high =>
    if low ≤ high then
      (low, high) :: (if p ≤ (low + high) / 2 then bisectRanges p k low ((low + high) / 2 - 1)
        else bisectRanges p k ((low + high) / 2 + 1) high)
    else []

/-- The place of `v[i]`: behind the elements in front of it that are not greater. -/
def placeOf (key : A → K) (v : ℤ → A) (lBegin i : ℤ) : ℤ :=
  lBegin + countIn (fun a => key a ≤ key (v i)) v lBegin (i - 1)

/-- No sum of the search for the place `p` of `v[i]` overflows, nor does `++i`. -/
def RoundFits (p lBegin i : ℤ) : Prop :=
  (∀ R ∈ bisectRanges p (i - lBegin).toNat lBegin (i - 1), R.1 + R.2 ≤ INT32_MAX) ∧ i < INT32_MAX

/-- **The sums fit**: none of the whole sort overflows. -/
def InsertFits (key : A → K) (v : ℤ → A) (lBegin lEnd : ℤ) : Prop :=
  lBegin < INT32_MAX ∧ ∀ i, lBegin < i → i ≤ lEnd → RoundFits (placeOf key v lBegin i) lBegin i

instance (p lBegin i : ℤ) : Decidable (RoundFits p lBegin i) := inferInstanceAs (Decidable (_ ∧ _))

section Search

variable {key : A → K} {v : ℤ → A} {temp : A} {p : ℤ}

/-- **THE SEARCH** finds the place, if its sums fit. -/
theorem bisect_eq {lBegin i : ℤ} (hB : 0 ≤ lBegin) (hbelow : ∀ j, lBegin ≤ j → j < p → key (v j) ≤ key temp)
    (habove : ∀ j, p ≤ j → j < i → key temp < key (v j)) (k : ℕ) :
    ∀ {low high : ℤ}, lBegin ≤ low → low ≤ p → p ≤ high + 1 → high < i → high - low + 1 ≤ k →
      bisect key v temp k low high =
        if ∀ R ∈ bisectRanges p k low high, R.1 + R.2 ≤ INT32_MAX then some p else none := by
  induction k with
  | zero =>
    intro low high _ hlp hph _ hk
    have hnil : ∀ R ∈ bisectRanges p 0 low high, R.1 + R.2 ≤ INT32_MAX :=
      fun R hR => absurd hR List.not_mem_nil
    rw [if_pos hnil, bisect, show low = p by omega]
  | succ k ih =>
    intro low high hlo hlp hph hhi hk
    rw [bisect, bisectRanges]
    by_cases hle : low ≤ high
    · rw [if_pos hle, if_pos hle]
      simp only [List.forall_mem_cons]
      by_cases hsum : low + high ≤ INT32_MAX
      · -- the half that the comparison leaves is the one with the place
        have hmid : (low + high).tdiv 2 = (low + high) / 2 := Int.tdiv_eq_ediv_of_nonneg (by omega)
        have hint : int32 (low + high) = some (low + high) := int32_of_le (by omega) hsum
        rw [hint, Option.bind_some, hmid]
        by_cases hside : p ≤ (low + high) / 2
        · rw [if_pos (habove _ hside (by omega)), if_pos hside,
            ih hlo hlp (by omega) (by omega) (by omega)]
          simp only [hsum, true_and]
        · rw [if_neg (not_lt.mpr (hbelow _ (by omega) (by omega))), if_neg hside,
            ih (by omega) (by omega) hph hhi (by omega)]
          simp only [hsum, true_and]
      · have hint : int32 (low + high) = none := int32_of_gt (not_le.mp hsum)
        rw [hint, if_neg (fun h => hsum h.1)]
        rfl
    · rw [if_neg hle, if_neg hle, if_pos (fun R hR => absurd hR List.not_mem_nil),
        show low = p by omega]

end Search

/-! ## §3. A round. -/

section Round

variable {key : A → K} {v : ℤ → A} {lBegin i p : ℤ}

/-- **Moving the elements up** brings the last one down to its place, by swaps with
    greater neighbours. -/
theorem shiftUp_stable {temp : A} (n : ℕ) : ∀ {k : ℤ} (v : ℤ → A), lBegin ≤ k + 1 - n → k + 1 ≤ i →
    (∀ j, k + 1 - n ≤ j → j ≤ k → key temp < key (v j)) → Stable key (update v (k + 1) temp)
        (update (shiftUp n k v) (k + 1 - n) temp) lBegin i := by
  induction n with
  | zero =>
    intro k v _ _ _
    rw [shiftUp, Nat.cast_zero, Int.sub_zero]
    exact Stable.refl key _ _ _
  | succ n ih =>
    intro k v hlo hhi hgreater
    push_cast at hlo hgreater ⊢
    -- the element has got to `k`
    have hswap : update v (k + 1) temp ∘ Equiv.swap k (k + 1) =
        update (update v (k + 1) (v k)) k temp := by
      funext j
      show update v (k + 1) temp (Equiv.swap k (k + 1) j) = _
      by_cases hj : j = k
      · rw [hj, Equiv.swap_apply_left, update_self, update_self]
      by_cases hj' : j = k + 1
      · rw [hj', Equiv.swap_apply_right, update_of_ne (by omega),
          update_of_ne (by omega), update_self]
      · rw [Equiv.swap_apply_of_ne_of_ne hj hj', update_of_ne hj',
          update_of_ne hj, update_of_ne hj']
    have hfirst : Stable key (update v (k + 1) temp)
        (update (update v (k + 1) (v k)) k temp) lBegin i := by
      rw [← hswap]
      refine Stable.swap _ (by omega) hhi ?_
      rw [update_of_ne (by omega), update_self]
      exact ne_of_gt (hgreater k (by omega) le_rfl)
    have hrest := ih (k := k - 1) (update v (k + 1) (v k)) (by omega) (by omega)
      (fun j hj hj' => by
        rw [update_of_ne (by omega)]
        exact hgreater j (by omega) (by omega))
    rw [show k - 1 + 1 = k by omega] at hrest
    rw [show k + 1 - ((n : ℤ) + 1) = k - n by omega]
    exact hfirst.trans hrest

/-- Outside of the elements that move up nothing changes, and they do. -/
theorem shiftUp_apply (n : ℕ) : ∀ (k : ℤ) (v : ℤ → A) (j : ℤ),
    shiftUp n k v j = if k + 1 - n < j ∧ j ≤ k + 1 then v (j - 1) else v j := by
  induction n with
  | zero =>
    intro k v j
    rw [if_neg (by push_cast; omega)]
    rfl
  | succ n ih =>
    intro k v j
    rw [shiftUp, ih]
    by_cases hin : k - 1 + 1 - (n : ℤ) < j ∧ j ≤ k - 1 + 1
    · rw [if_pos hin, if_pos (by omega), update_of_ne (by omega)]
    rw [if_neg hin]
    by_cases hlast : j = k + 1
    · rw [hlast, update_self, if_pos (by omega), show k + 1 - 1 = k by omega]
    · rw [update_of_ne hlast, if_neg (by omega)]

/-- **A ROUND** puts `v[i]` behind the elements that are not greater. -/
theorem insertRound_spec (hlo : lBegin ≤ p) (hhi : p ≤ i) (hs : SortedOn (key ∘ v) lBegin (i - 1))
    (hbelow : ∀ j, lBegin ≤ j → j < p → key (v j) ≤ key (v i))
    (habove : ∀ j, p ≤ j → j < i → key (v i) < key (v j)) :
    Stable key v (update (shiftUp (i - p).toNat (i - 1) v) p (v i)) lBegin i ∧
      SortedOn (key ∘ update (shiftUp (i - p).toNat (i - 1) v) p (v i)) lBegin i := by
  have hn : ((i - p).toNat : ℤ) = i - p := Int.toNat_of_nonneg (by omega)
  constructor
  · have hstable := @shiftUp_stable A K _ key lBegin i (v i) (i - p).toNat (i - 1) v
      (by omega) (by omega) (fun j hj hj' => habove j (by omega) (by omega))
    rw [show i - 1 + 1 = i by omega, update_eq_self, hn, show i - (i - p) = p by omega]
      at hstable
    exact hstable
  · -- the elements up to the place, the new one, and those that have moved up
    have happly : ∀ j, update (shiftUp (i - p).toNat (i - 1) v) p (v i) j =
        if j = p then v i else if p < j ∧ j ≤ i then v (j - 1) else v j := by
      intro j
      by_cases hj : j = p
      · rw [hj, update_self, if_pos rfl]
      · rw [update_of_ne hj, shiftUp_apply, hn, if_neg hj,
          show i - 1 + 1 - (i - p) = p by omega, show i - 1 + 1 = i by omega]
    intro a b ha hab hb
    show key (update (shiftUp (i - p).toNat (i - 1) v) p (v i) a) ≤
      key (update (shiftUp (i - p).toNat (i - 1) v) p (v i) b)
    rw [happly, happly]
    by_cases hb' : b = p
    · -- the new element, behind one that is not greater
      rw [if_pos hb']
      by_cases ha' : a = p
      · rw [if_pos ha']
      · rw [if_neg ha', if_neg (by omega)]
        exact hbelow a ha (by omega)
    rw [if_neg hb']
    by_cases ha' : a = p
    · -- in front of one that has moved up
      rw [if_pos ha', if_pos (by omega)]
      exact le_of_lt (habove (b - 1) (by omega) (by omega))
    rw [if_neg ha']
    by_cases hap : p < a
    · rw [if_pos (by omega : p < a ∧ a ≤ i), if_pos (by omega)]
      exact hs (a - 1) (b - 1) (by omega) (by omega) (by omega)
    rw [if_neg (by omega : ¬ (p < a ∧ a ≤ i))]
    by_cases hbp : p < b
    · rw [if_pos ⟨hbp, hb⟩]
      exact hs a (b - 1) ha (by omega) (by omega)
    · rw [if_neg (by omega)]
      exact hs a b ha hab (by omega)

end Round

/-! ## §4. The sort. -/

/-- A range has been sorted by its keys, and elements with equal keys have kept
    their order. -/
def StableSorted (key : A → K) (v v' : ℤ → A) (m n : ℤ) : Prop :=
  Stable key v v' m n ∧ SortedOn (key ∘ v') m n

section Sorting

variable {key : A → K} {v w : ℤ → A} {lBegin lEnd i : ℤ}

theorem placeOf_eq {p : ℤ} (hw : Permuted v w lBegin (i - 1)) (hlo : lBegin ≤ p) (hhi : p ≤ i)
    (hbelow : ∀ j, lBegin ≤ j → j < p → key (w j) ≤ key (w i))
    (habove : ∀ j, p ≤ j → j < i → key (w i) < key (w j)) : placeOf key v lBegin i = p := by
  have hcard := @countIn_below A K key w lBegin (i - 1) _ (key (w i)) p hlo (by omega) hbelow
    (fun j hj hj' => habove j hj (by omega))
  unfold placeOf
  rw [← hw.outside (i := i) (by omega), ← hw.countIn_eq fun a => key a ≤ key (w i), hcard]
  omega

section

variable (hB : 0 ≤ lBegin)
include hB

/-- One round, from elements that are sorted up to `i`. -/
theorem insertRounds_step (hi : lBegin < i) (hle : i ≤ lEnd) (hw : StableSorted key v w lBegin (i - 1)) (n : ℕ) :
    ∃ w', StableSorted key v w' lBegin i ∧ insertRounds key lBegin lEnd (n + 1) i w =
      if RoundFits (placeOf key v lBegin i) lBegin i then insertRounds key lBegin lEnd n (i + 1) w'
      else none := by
  obtain ⟨hstable, hs⟩ := hw
  obtain ⟨p, hlo, hhi, hbelow, habove⟩ := exists_place (key (w i)) (by omega) hs
  have habove' : ∀ j, p ≤ j → j < i → key (w i) < key (w j) := fun j hj hj' =>
    habove j hj (by omega)
  have hplace := placeOf_eq hstable.permuted hlo (by omega) hbelow habove'
  obtain ⟨hstable', hs'⟩ := insertRound_spec hlo (by omega) hs hbelow habove'
  refine ⟨_, ⟨(hstable.mono le_rfl (by omega)).trans hstable', hs'⟩, ?_⟩
  rw [insertRounds, if_pos hle, hplace, bisect_eq hB hbelow habove' _ le_rfl hlo (by omega) (by omega)
    (by omega)]
  by_cases hsums : ∀ R ∈ bisectRanges p (i - lBegin).toNat lBegin (i - 1), R.1 + R.2 ≤ INT32_MAX
  · rw [if_pos hsums, Option.bind_some]
    by_cases hlast : i < INT32_MAX
    · have hint : int32 (i + 1) = some (i + 1) := int32_of_le (by omega) (by omega)
      have hfits : RoundFits p lBegin i := ⟨hsums, hlast⟩
      rw [if_pos hfits, hint, Option.bind_some]
    have hint : int32 (i + 1) = none := int32_of_gt (by omega)
    have hfits : ¬ RoundFits p lBegin i := fun h => hlast h.2
    rw [if_neg hfits, hint]
    rfl
  · have hfits : ¬ RoundFits p lBegin i := fun h => hsums h.1
    rw [if_neg hsums, if_neg hfits]
    rfl

/-- **The rounds** from `i` on. -/
theorem insertRounds_spec (n : ℕ) : ∀ {i : ℤ} {w : ℤ → A}, lBegin < i →
    lEnd + 1 - i ≤ n → StableSorted key v w lBegin (i - 1) →
    ((∀ j, i ≤ j → j ≤ lEnd → RoundFits (placeOf key v lBegin j) lBegin j) ∧
      (∃ v', insertRounds key lBegin lEnd n i w = some v' ∧
        StableSorted key v v' lBegin (max (i - 1) lEnd))) ∨
    (∃ j, i ≤ j ∧ j ≤ lEnd ∧ ¬ RoundFits (placeOf key v lBegin j) lBegin j) ∧
      insertRounds key lBegin lEnd n i w = none := by
  induction n with
  | zero =>
    intro i w hi hn hw
    refine Or.inl ⟨fun j hj hj' => by omega, w, rfl, ?_⟩
    rw [max_eq_left (by omega)]
    exact hw
  | succ n ih =>
    intro i w hi hn hw
    by_cases hle : i ≤ lEnd
    · obtain ⟨w', hw', hround⟩ := insertRounds_step hB hi hle hw n
      rw [hround]
      by_cases hfits : RoundFits (placeOf key v lBegin i) lBegin i
      · rw [if_pos hfits]
        obtain ⟨hrest, v', hrun, hsort⟩ | ⟨⟨j, hij, hj, hbad⟩, hnone⟩ := ih (i := i + 1) (w := w')
          (by omega) (by omega) (by rw [show i + 1 - 1 = i by omega]; exact hw')
        · refine Or.inl ⟨fun j hj hj' => ?_, v', hrun, ?_⟩
          · by_cases heq : j = i
            · rw [heq]
              exact hfits
            · exact hrest j (by omega) hj'
          · rw [max_eq_right (by omega)] at hsort ⊢
            exact hsort
        · exact Or.inr ⟨⟨j, by omega, hj, hbad⟩, hnone⟩
      · rw [if_neg hfits]
        exact Or.inr ⟨⟨i, le_rfl, hle, hfits⟩, rfl⟩
    · rw [insertRounds, if_neg hle]
      refine Or.inl ⟨fun j hj hj' => by omega, w, rfl, ?_⟩
      rw [max_eq_left (by omega)]
      exact hw

/-- **THE INSERTION SORT** sorts the range, and is stable, or comes to a sum that does
    not fit. -/
theorem Q_Insert_Sort_cases (key : A → K) (v : ℤ → A) (lEnd : ℤ) : (InsertFits key v lBegin lEnd ∧
      ∃ v', Q_Insert_Sort key v lBegin lEnd = some v' ∧ StableSorted key v v' lBegin lEnd) ∨
    ¬ InsertFits key v lBegin lEnd ∧ Q_Insert_Sort key v lBegin lEnd = none := by
  by_cases hbegin : lBegin < INT32_MAX
  · have hint : int32 (lBegin + 1) = some (lBegin + 1) := int32_of_le (by omega) (by omega)
    have hstart : StableSorted key v v lBegin (lBegin + 1 - 1) :=
      ⟨Stable.refl key v _ _, SortedOn.of_le (by omega)⟩
    have hrounds : Q_Insert_Sort key v lBegin lEnd =
        insertRounds key lBegin lEnd (lEnd - lBegin).toNat (lBegin + 1) v := by
      rw [Q_Insert_Sort, hint]
      rfl
    rw [hrounds]
    obtain ⟨hrest, v', hrun, hstable, hs⟩ | ⟨⟨j, hj, hj', hbad⟩, hnone⟩ := insertRounds_spec hB
      (lEnd - lBegin).toNat (by omega) (by omega : lEnd + 1 - (lBegin + 1) ≤ _) hstart
    · refine Or.inl ⟨⟨hbegin, fun j hj hj' => hrest j (by omega) hj'⟩, v', hrun, ?_,
        hs.mono le_rfl (by omega)⟩
      by_cases hempty : lEnd < lBegin
      · -- one element, which has not moved
        obtain ⟨π, hπ, heq, horder⟩ := hstable
        have hone : π = 1 := by
          ext i
          by_cases hi : i = lBegin
          · have hin := hπ.inside (i := i) (by omega)
            show π i = i
            omega
          · exact hπ i (by omega)
        rw [heq, hone]
        exact Stable.refl key v _ _
      · rw [max_eq_right (by omega)] at hstable
        exact hstable
    · exact Or.inr ⟨fun hfits => hbad (hfits.2 j (by omega) hj'), hnone⟩
  · -- already the first counter
    have hint : int32 (lBegin + 1) = none := int32_of_gt (by omega)
    refine Or.inr ⟨fun hfits => hbegin hfits.1, ?_⟩
    rw [Q_Insert_Sort, hint]
    rfl

theorem Q_Insert_Sort_eq_some (hfits : InsertFits key v lBegin lEnd) :
    ∃ v', Q_Insert_Sort key v lBegin lEnd = some v' ∧ StableSorted key v v' lBegin lEnd := by
  obtain ⟨-, hsort⟩ | ⟨hbad, -⟩ := Q_Insert_Sort_cases hB key v lEnd
  · exact hsort
  · exact absurd hfits hbad

theorem Q_Insert_Sort_eq_none (hfits : ¬ InsertFits key v lBegin lEnd) : Q_Insert_Sort key v lBegin lEnd = none := by
  obtain ⟨hgood, -⟩ | ⟨-, hnone⟩ := Q_Insert_Sort_cases hB key v lEnd
  · exact absurd hgood hfits
  · exact hnone

end

/-- Up to 2³⁰ all sums fit. -/
theorem insertFits_of_le (key : A → K) (v : ℤ → A) (hB : lBegin < INT32_MAX)
    (hE : lEnd ≤ 2 ^ 30) : InsertFits key v lBegin lEnd := by
  have hranges : ∀ (p : ℤ) (k : ℕ) {low high : ℤ}, high < 2 ^ 30 → ∀ R ∈ bisectRanges p k low high,
      R.1 + R.2 ≤ INT32_MAX := by
    intro p k
    induction k with
    | zero => exact fun _ R hR => absurd hR List.not_mem_nil
    | succ k ih =>
      intro low high hhi
      rw [bisectRanges]
      split
      · rw [List.forall_mem_cons]
        refine ⟨by unfold INT32_MAX; omega, ?_⟩
        split
        · exact ih (by omega)
        · exact ih hhi
      · exact fun R hR => absurd hR List.not_mem_nil
  exact ⟨hB, fun i hi hi' => ⟨hranges _ _ (by omega), by unfold INT32_MAX; omega⟩⟩

end Sorting

end KalavaPir.Common
