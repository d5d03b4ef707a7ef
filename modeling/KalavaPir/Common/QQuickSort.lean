/-
  KalavaPir.Common.QQuickSort — the quicksort with a median of three,
  `common/qalgorithm.h`, and `QVector::sort`.

  `median3` puts the median of the first, the middle and the last element at the
  end.  The loop of `partition` exchanges two elements without moving on, and its
  scans stop at elements that are equal to the pivot: two such elements in front
  of the last one are exchanged for ever.
-/
import KalavaPir.Framework.CallTree
import KalavaPir.Framework.Loop
import KalavaPir.Common.QAlgorithm
import KalavaPir.Common.QInsertSort

namespace KalavaPir.Common.QuickSort

open KalavaPir.Framework

variable {A : Type} [LinearOrder A]

/-! ## §1. The functions. -/

/-- The array after qalgorithm.h:217; the function returns its last element. -/
def median3 (v : ℤ → A) (lBegin lEnd : ℤ) : Option (ℤ → A) :=
  (int32 (lBegin + lEnd)).bind fun sum =>
    let mid := sum.tdiv 2
    let k := if v mid < v lBegin then mid else lBegin
    let k := if v lEnd < v k then lEnd else k
    let v := if k ≠ lBegin then swapAt v k lBegin else v
    some (if mid ≠ lEnd ∧ v mid < v lEnd then swapAt v mid lEnd else v)

/-- The variables of the exchanges. -/
structure Exchange (A : Type) where
  v : ℤ → A
  i : ℤ
  j : ℤ

/-- A round of `Q_FOREVER { … }`, with the two scans. -/
def exchangeRound (pivot : A) (s : Exchange A) : Option (LoopStep (Exchange A) ((ℤ → A) × ℤ)) :=
  let i := scanUp s.v pivot (s.j - s.i).toNat s.i
  let j := scanDown s.v pivot (s.j - i).toNat s.j
  if i < j then some (.again { v := swapAt s.v i j, i := i, j := j }) else some (.done (s.v, i))

/-- qalgorithm.h:241, with fuel for the exchanges. -/
def partition (fuel : ℕ) (v : ℤ → A) (lBegin lEnd : ℤ) : Option ((ℤ → A) × ℤ) :=
  if lBegin < lEnd then
    (median3 v lBegin lEnd).bind fun v =>
      let pivot := v lEnd
      (loop (exchangeRound pivot) fuel { v := v, i := lBegin, j := lEnd - 1 }).map fun r =>
        if r.1 r.2 > pivot then
          (Function.update (Function.update r.1 lEnd (r.1 r.2)) r.2 pivot, r.2)
        else r
  else some (v, lBegin)

/-- qalgorithm.h:270, with fuel for the depth of the recursion and the exchanges. -/
def Q_Quick_Sort : ℕ → (ℤ → A) → ℤ → ℤ → Option (ℤ → A)
  | 0, _, _, _ => none
  | fuel + 1, v, lBegin, lEnd =>
    if lEnd - lBegin ≤ 20 then Q_Insert_Sort id v lBegin lEnd
    else
      (partition fuel v lBegin lEnd).bind fun p =>
        (Q_Quick_Sort fuel p.1 lBegin (p.2 - 1)).bind fun v => Q_Quick_Sort fuel v (p.2 + 1) lEnd

/-- `QVector<T_TYPE>`; the elements are inside of the array. -/
structure QVector (A : Type) where
  data_ : ℤ → A
  max_size_ : ℤ
  last_ : ℤ
  last_lower : -1 ≤ last_
  last_lt : last_ < max_size_
  max_le : max_size_ ≤ INT32_MAX

/-- The elements of the vector. -/
def QVector.size (q : QVector A) : ℤ := q.last_ + 1

/-- qvector.h:98 -/
def QVector.sort (fuel : ℕ) (q : QVector A) : Option (QVector A) :=
  if q.size > 1 then (Q_Quick_Sort fuel q.data_ 0 (q.size - 1)).map fun v => { q with data_ := v }
  else some q

/-! ## §2. What a call can do. -/

/-- The median of three. -/
def medianOf (x y z : A) : A := max (min x y) (min (max x y) z)

/-- The pivot of a range. -/
def pivotOf (v : ℤ → A) (lBegin lEnd : ℤ) : A :=
  medianOf (v lBegin) (v ((lBegin + lEnd) / 2)) (v lEnd)

/-- How often an element occurs in a range. -/
def occurs (v : ℤ → A) (lBegin lEnd : ℤ) (a : A) : ℕ := countIn (· = a) v lBegin lEnd

/-- **What a call can do**: a range of more than 21 elements has its pivot at most
    twice, and the sum of its ends is an `int32_t`; a shorter one is sorted by
    insertion. -/
def CallFits (v : ℤ → A) (R : ℤ × ℤ) : Prop :=
  if R.2 - R.1 ≤ 20 then InsertFits id v R.1 R.2
  else R.1 + R.2 ≤ INT32_MAX ∧ occurs v R.1 R.2 (pivotOf v R.1 R.2) ≤ 2

/-- The work of a call, with the ranges that it calls the function for. -/
def quickWork (R : ℤ × ℤ) (v : ℤ → A) : Option ((ℤ → A) × List (ℤ × ℤ)) :=
  if R.2 - R.1 ≤ 20 then (Q_Insert_Sort id v R.1 R.2).map fun v => (v, [])
  else (partition (2 * (R.2 - R.1).toNat) v R.1 R.2).map fun p =>
    (p.1, [(R.1, p.2 - 1), (p.2 + 1, R.2)])

/-- **Every call can**: those that the sort of a range makes. -/
def QuickFits (v : ℤ → A) (lBegin lEnd : ℤ) : Prop :=
  ∀ R w k, ComesTo quickWork (lBegin, lEnd) v R w k → CallFits w R

/-- The sort returns, and the range is sorted. -/
def QuickSorts (v : ℤ → A) (lBegin lEnd : ℤ) : Prop :=
  ∃ fuel v', Q_Quick_Sort fuel v lBegin lEnd = some v' ∧
    Permuted v v' lBegin lEnd ∧ SortedOn v' lBegin lEnd

/-- The same for the elements of a vector. -/
def QVector.Sorts (q : QVector A) : Prop :=
  ∃ fuel q', q.sort fuel = some q' ∧ q'.last_ = q.last_ ∧
    Permuted q.data_ q'.data_ 0 q.last_ ∧ SortedOn q'.data_ 0 q.last_

/-! ## §3. The median. -/

section Median

variable {v : ℤ → A} {m n : ℤ}

theorem medianOf_of_le {x y z : A} (hxy : x ≤ y) (hyz : y ≤ z) :
    medianOf x y z = y ∧ medianOf x z y = y ∧ medianOf y x z = y ∧ medianOf y z x = y ∧
      medianOf z x y = y ∧ medianOf z y x = y := by
  have hxz : x ≤ z := le_trans hxy hyz
  unfold medianOf
  simp only [max_eq_left, max_eq_right, min_eq_left, min_eq_right, hxy, hyz, hxz, and_self]

/-- The least of the three goes to the front. -/
theorem leastFirst_spec (v : ℤ → A) {m c n : ℤ} (hlo : m < c) (hhi : c < n) :
    ∃ k, (if v n < v (if v c < v m then c else m) then n else if v c < v m then c else m) = k ∧
      Permuted v (if k ≠ m then swapAt v k m else v) m n ∧
      medianOf (v m) (v c) (v n) = min ((if k ≠ m then swapAt v k m else v) c)
        ((if k ≠ m then swapAt v k m else v) n) := by
  refine ⟨_, rfl, ?_, ?_⟩
  · have hk : ∀ k, m ≤ k ∧ k ≤ n → Permuted v (if k ≠ m then swapAt v k m else v) m n := by
      intro k hk
      split
      · exact Permuted.swapAt v hk ⟨le_rfl, by omega⟩
      · exact Permuted.refl v m n
    refine hk _ ?_
    split_ifs <;> omega
  by_cases hcm : v c < v m
  · rw [if_pos hcm]
    by_cases hnc : v n < v c
    · -- the last one is the least, and the first one takes its place
      rw [if_pos hnc, if_pos (by omega), swapAt_left, swapAt_other v (by omega) (by omega),
        (medianOf_of_le hnc.le hcm.le).2.2.2.2.2, min_eq_left hcm.le]
    -- the middle one
    rw [if_neg hnc, if_pos (by omega), swapAt_left, swapAt_other v (by omega) (by omega)]
    by_cases hmn : v m ≤ v n
    · rw [(medianOf_of_le hcm.le hmn).2.2.1, min_eq_left hmn]
    · rw [(medianOf_of_le (not_lt.mp hnc) (not_le.mp hmn).le).2.2.2.2.1,
        min_eq_right (not_le.mp hmn).le]
  · rw [if_neg hcm]
    by_cases hnm : v n < v m
    · rw [if_pos hnm, if_pos (by omega), swapAt_left, swapAt_other v (by omega) (by omega),
        (medianOf_of_le hnm.le (not_lt.mp hcm)).2.2.2.1, min_eq_right (not_lt.mp hcm)]
    rw [if_neg hnm, if_neg (by omega)]
    by_cases hcn : v c ≤ v n
    · rw [(medianOf_of_le (not_lt.mp hcm) hcn).1, min_eq_left hcn]
    · rw [(medianOf_of_le (not_lt.mp hnm) (not_le.mp hcn).le).2.1,
        min_eq_right (not_le.mp hcn).le]

/-- **The median goes to the end**, and something that is not smaller stands in
    front of it. -/
theorem median3_spec (hm : 0 ≤ m) (hmn : m + 2 ≤ n) (hsum : m + n ≤ INT32_MAX) :
    ∃ u, median3 v m n = some u ∧ Permuted v u m n ∧ u n = pivotOf v m n ∧
      ∃ x, m ≤ x ∧ x ≤ n - 1 ∧ u n ≤ u x := by
  have hint : int32 (m + n) = some (m + n) := int32_of_le (by omega) hsum
  have hmid : (m + n).tdiv 2 = (m + n) / 2 := Int.tdiv_eq_ediv_of_nonneg (by omega)
  have hlo : m < (m + n) / 2 := by omega
  have hhi : (m + n) / 2 < n := by omega
  unfold median3 pivotOf
  rw [hint, Option.bind_some, hmid]
  generalize (m + n) / 2 = c at hlo hhi ⊢
  dsimp only
  obtain ⟨k, hk, hperm, hval⟩ := leastFirst_spec v hlo hhi
  rw [hk, hval]
  generalize (if k ≠ m then swapAt v k m else v) = w at hperm ⊢
  -- then the lesser of the other two goes to the end
  by_cases hlt : w c < w n
  · rw [if_pos ⟨by omega, hlt⟩]
    refine ⟨_, rfl, hperm.trans (Permuted.swapAt w ⟨by omega, by omega⟩ ⟨by omega, le_rfl⟩), ?_,
      c, by omega, by omega, ?_⟩
    · rw [swapAt_right, min_eq_left hlt.le]
    · rw [swapAt_right, swapAt_left]
      exact hlt.le
  · rw [if_neg (fun h => hlt h.2)]
    exact ⟨_, rfl, hperm, (min_eq_right (not_lt.mp hlt)).symm, c, by omega, by omega, not_lt.mp hlt⟩

end Median

/-! ## §4. The exchanges. -/

section Exchanges

variable {u : ℤ → A} {pivot : A} {m n : ℤ} {s : Exchange A}

/-- What the scans leave: the elements that they pass are on their side, and they
    stop at elements that are not. -/
structure Scanned (pivot : A) (s : Exchange A) (i j : ℤ) : Prop where
  order : s.i ≤ i ∧ i ≤ j ∧ j ≤ s.j
  below : ∀ x, s.i ≤ x → x < i → s.v x < pivot
  above : ∀ x, j < x → x ≤ s.j → pivot < s.v x
  up : i < s.j → pivot ≤ s.v i
  down : i < j → s.v j ≤ pivot

/-- **A round**: it goes on with the two elements exchanged, or the positions
    have met. -/
theorem exchangeRound_cases (pivot : A) (hle : s.i ≤ s.j) : ∃ i j, Scanned pivot s i j ∧
    (i < j ∧ exchangeRound pivot s = some (.again { v := swapAt s.v i j, i := i, j := j }) ∨
      i = j ∧ exchangeRound pivot s = some (.done (s.v, i))) := by
  obtain ⟨hlo, hhi, hbelow, hup⟩ := scanUp_spec s.v pivot (s.j - s.i).toNat s.i
  unfold exchangeRound
  generalize scanUp s.v pivot (s.j - s.i).toNat s.i = i at *
  obtain ⟨hhi', hlo', habove, hdown⟩ := scanDown_spec s.v pivot (s.j - i).toNat s.j
  dsimp only
  generalize scanDown s.v pivot (s.j - i).toNat s.j = j at *
  refine ⟨i, j, ⟨⟨hlo, by omega, hhi'⟩, hbelow, habove, fun h => hup (by omega),
    fun h => hdown (by omega)⟩, ?_⟩
  by_cases hmeet : i < j
  · rw [if_pos hmeet]
    exact Or.inl ⟨hmeet, rfl⟩
  · rw [if_neg hmeet]
    exact Or.inr ⟨by omega, rfl⟩

/-- **The invariant of the exchanges** of the elements from `m` to `n`: what is
    left of `i` is less than the pivot, what is right of `j` is greater, and
    something between them is not less. -/
structure ExchangeAt (u : ℤ → A) (pivot : A) (m n : ℤ) (s : Exchange A) : Prop where
  perm : Permuted u s.v m n
  order : m ≤ s.i ∧ s.i ≤ s.j ∧ s.j ≤ n
  left : ∀ x, m ≤ x → x < s.i → s.v x < pivot
  right : ∀ x, s.j < x → x ≤ n → pivot < s.v x
  some_ge : ∃ x, s.i ≤ x ∧ x ≤ s.j ∧ pivot ≤ s.v x

variable {i j : ℤ}

/-- The scans keep both sides, and stop in front of an element that is not less. -/
theorem ExchangeAt.scanned (h : ExchangeAt u pivot m n s) (hs : Scanned pivot s i j) :
    (∀ x, m ≤ x → x < i → s.v x < pivot) ∧ (∀ x, j < x → x ≤ n → pivot < s.v x) ∧
      pivot ≤ s.v i := by
  obtain ⟨hlo, hij, hhi⟩ := hs.order
  refine ⟨fun x hx hx' => ?_, fun x hx hx' => ?_, ?_⟩
  · by_cases hold : x < s.i
    · exact h.left x hx hold
    · exact hs.below x (by omega) hx'
  · by_cases hold : s.j < x
    · exact h.right x hold hx'
    · exact hs.above x hx (by omega)
  · obtain ⟨x, hx, hx', hge⟩ := h.some_ge
    -- the scan upwards does not pass `x`
    have hix : i ≤ x := by
      by_contra hbad
      exact absurd (hs.below x hx (by omega)) (not_lt.mpr hge)
    by_cases hlast : i < s.j
    · exact hs.up hlast
    · rwa [show i = x by omega]

/-- A round keeps the invariant. -/
theorem ExchangeAt.again (h : ExchangeAt u pivot m n s) (hs : Scanned pivot s i j) (hlt : i < j) :
    ExchangeAt u pivot m n { v := swapAt s.v i j, i := i, j := j } := by
  obtain ⟨hm, -, hn⟩ := h.order
  obtain ⟨hlo, -, hhi⟩ := hs.order
  obtain ⟨hleft, hright, hge⟩ := h.scanned hs
  refine ⟨h.perm.trans (Permuted.swapAt s.v ⟨by omega, by omega⟩ ⟨by omega, by omega⟩),
    ⟨by show m ≤ i; omega, hlt.le, by show j ≤ n; omega⟩, fun x hx hx' => ?_, fun x hx hx' => ?_,
    j, hlt.le, le_rfl, ?_⟩
  · dsimp only at hx' ⊢
    rw [swapAt_other s.v (by omega) (by omega)]
    exact hleft x hx hx'
  · dsimp only at hx ⊢
    rw [swapAt_other s.v (by omega) (by omega)]
    exact hright x hx hx'
  · show pivot ≤ swapAt s.v i j j
    rw [swapAt_right]
    exact hge

/-- How far the positions are apart; between two rounds one of them moves. -/
def Exchange.rank (pivot : A) (s : Exchange A) : ℕ :=
  2 * (s.j - s.i).toNat + if s.v s.i < pivot ∨ pivot < s.v s.j then 0 else 1

/-- The exchange of two elements that are not both equal to the pivot lets a scan
    get further. -/
theorem Exchange.rank_lt (hs : Scanned pivot s i j) (hlt : i < j) (hge : pivot ≤ s.v i)
    (hne : ¬ (s.v i = pivot ∧ s.v j = pivot)) :
    ({ v := swapAt s.v i j, i := i, j := j } : Exchange A).rank pivot < s.rank pivot := by
  obtain ⟨hlo, -, hhi⟩ := hs.order
  have hle : s.v j ≤ pivot := hs.down hlt
  have hmoves : swapAt s.v i j i < pivot ∨ pivot < swapAt s.v i j j := by
    rw [swapAt_left, swapAt_right]
    by_contra hbad
    push Not at hbad
    exact hne ⟨le_antisymm hbad.2 hge, le_antisymm hle hbad.1⟩
  unfold Exchange.rank
  rw [if_pos hmoves]
  dsimp only
  by_cases hsame : i = s.i ∧ j = s.j
  · -- neither has moved in this round, so one of them moves in the next
    rw [← hsame.1, ← hsame.2, if_neg (by rw [not_or]; exact ⟨not_lt.mpr hge, not_lt.mpr hle⟩)]
    omega
  · split <;> omega

theorem two_le_occurs {v : ℤ → A} {a : A} {x y : ℤ} (hx : m ≤ x ∧ x ≤ n) (hy : m ≤ y ∧ y ≤ n)
    (hne : x ≠ y) (hvx : v x = a) (hvy : v y = a) : 2 ≤ occurs v m n a := by
  have hmem : ∀ {z : ℤ}, m ≤ z ∧ z ≤ n → v z = a → z ∈ (places m n).filter fun i => v i = a :=
    fun hz hvz => Finset.mem_filter.mpr ⟨mem_places.mpr hz, hvz⟩
  exact Finset.one_lt_card.mpr ⟨x, hmem hx hvx, y, hmem hy hvy, hne⟩

/-- **THE EXCHANGES END** if the pivot occurs once at most. -/
theorem partitionLoop_returns (hmn : m ≤ n) (honce : occurs u m n pivot ≤ 1)
    (hge : ∃ x, m ≤ x ∧ x ≤ n ∧ pivot ≤ u x) {fuel : ℕ} (hfuel : 2 * (n - m).toNat + 1 < fuel) :
    ∃ w r, loop (exchangeRound pivot) fuel { v := u, i := m, j := n } = some (w, r) ∧
      Permuted u w m n ∧ m ≤ r ∧ r ≤ n ∧ (∀ x, m ≤ x → x < r → w x < pivot) ∧
      (∀ x, r < x → x ≤ n → pivot < w x) ∧ pivot ≤ w r := by
  have hround : ∀ s, ExchangeAt u pivot m n s →
      (∃ s', exchangeRound pivot s = some (.again s') ∧ ExchangeAt u pivot m n s' ∧
        s'.rank pivot < s.rank pivot) ∨
      ∃ r : (ℤ → A) × ℤ, exchangeRound pivot s = some (.done r) ∧ (Permuted u r.1 m n ∧ m ≤ r.2 ∧
        r.2 ≤ n ∧ (∀ x, m ≤ x → x < r.2 → r.1 x < pivot) ∧
        (∀ x, r.2 < x → x ≤ n → pivot < r.1 x) ∧ pivot ≤ r.1 r.2) := by
    intro s h
    obtain ⟨hm, hij, hn⟩ := h.order
    obtain ⟨i, j, hs, ⟨hlt, hrun⟩ | ⟨heq, hrun⟩⟩ := exchangeRound_cases pivot hij
    · obtain ⟨hlo, -, hhi⟩ := hs.order
      refine Or.inl ⟨_, hrun, h.again hs hlt, Exchange.rank_lt hs hlt (h.scanned hs).2.2 fun hboth => ?_⟩
      -- the pivot would occur twice
      have htwo := two_le_occurs (m := m) (n := n) ⟨by omega, by omega⟩ ⟨by omega, by omega⟩
        (ne_of_lt hlt) hboth.1 hboth.2
      have hcard : occurs s.v m n pivot = occurs u m n pivot := h.perm.countIn_eq (· = pivot)
      omega
    · obtain ⟨hlo, -, hhi⟩ := hs.order
      obtain ⟨hleft, hright, hge⟩ := h.scanned hs
      exact Or.inr ⟨_, hrun, h.perm, by show m ≤ i; omega, by show i ≤ n; omega, hleft,
        fun x hx hx' => hright x (by rw [← heq]; exact hx) hx', hge⟩
  have hstart : ExchangeAt u pivot m n { v := u, i := m, j := n } :=
    ⟨Permuted.refl u m n, ⟨le_rfl, hmn, le_rfl⟩, fun x hx hx' => absurd hx' (not_lt.mpr hx),
      fun x hx hx' => absurd hx (not_lt.mpr hx'), hge⟩
  have hrank : ({ v := u, i := m, j := n } : Exchange A).rank pivot < fuel := by
    unfold Exchange.rank
    dsimp only
    split <;> omega
  obtain ⟨⟨w, r⟩, hrun, hpost⟩ := loop_ends (Exchange.rank pivot) hround fuel hstart hrank
  exact ⟨w, r, hrun, hpost⟩

/-- **OTHERWISE THEY DO NOT**: neither scan gets past the pivot. -/
theorem partitionLoop_never (htwice : 2 ≤ occurs u m n pivot) (fuel : ℕ) :
    loop (exchangeRound pivot) fuel { v := u, i := m, j := n } = none := by
  have hstart : ∃ x y, m ≤ x ∧ x < y ∧ y ≤ n ∧ u x = pivot ∧ u y = pivot := by
    have hcard : 1 < ((places m n).filter fun i => u i = pivot).card := htwice
    obtain ⟨x, hx, y, hy, hne⟩ := Finset.one_lt_card.mp hcard
    rw [Finset.mem_filter, mem_places] at hx hy
    by_cases hlt : x < y
    · exact ⟨x, y, hx.1.1, hlt, hy.1.2, hx.2, hy.2⟩
    · exact ⟨y, x, hy.1.1, by omega, hx.1.2, hy.2, hx.2⟩
  refine loop_never (I := fun s : Exchange A =>
    ∃ x y, s.i ≤ x ∧ x < y ∧ y ≤ s.j ∧ s.v x = pivot ∧ s.v y = pivot) (fun s hs => ?_) fuel hstart
  obtain ⟨x, y, hx, hxy, hy, hvx, hvy⟩ := hs
  obtain ⟨i, j, hs, hcase⟩ := exchangeRound_cases pivot (by omega : s.i ≤ s.j)
  -- the two stay between the positions
  have hix : i ≤ x := by
    by_contra hbad
    exact absurd (hs.below x hx (by omega)) (by rw [hvx]; exact lt_irrefl _)
  have hyj : y ≤ j := by
    by_contra hbad
    exact absurd (hs.above y (by omega) hy) (by rw [hvy]; exact lt_irrefl _)
  obtain ⟨hlt, hrun⟩ | ⟨heq, -⟩ := hcase
  · refine ⟨_, hrun, ?_⟩
    -- an exchange with another element takes its pivot along
    have hval : ∀ z, swapAt s.v i j (Equiv.swap i j z) = s.v z := by
      intro z
      rw [swapAt_eq]
      exact congrArg s.v (Equiv.swap_apply_self i j z)
    have hin : ∀ z, i ≤ z → z ≤ j → i ≤ Equiv.swap i j z ∧ Equiv.swap i j z ≤ j := by
      intro z hz hz'
      rw [Equiv.swap_apply_def]
      split_ifs <;> omega
    have hne : Equiv.swap i j x ≠ Equiv.swap i j y := fun h => by
      have := (Equiv.swap i j).injective h
      omega
    have hx' := hin x hix (by omega)
    have hy' := hin y (by omega) hyj
    by_cases hless : Equiv.swap i j x < Equiv.swap i j y
    · exact ⟨_, _, hx'.1, hless, hy'.2, (hval x).trans hvx, (hval y).trans hvy⟩
    · exact ⟨_, _, hy'.1, by omega, hx'.2, (hval y).trans hvy, (hval x).trans hvx⟩
  · omega

end Exchanges

/-! ## §5. The partition. -/

section Partition

variable {v : ℤ → A} {m n : ℤ}

variable {u : ℤ → A}

theorem occurs_last {a : A} (hmn : m ≤ n) (hlast : u n = a) :
    occurs u m n a = occurs u m (n - 1) a + 1 := by
  unfold occurs
  rw [countIn_last (· = a) u hmn, if_pos hlast]

/-- The range from `m` to `n` has been partitioned at `r`. -/
structure PartedAt (v w : ℤ → A) (m n r : ℤ) : Prop where
  perm : Permuted v w m n
  lower : m ≤ r
  upper : r < n
  left : ∀ x, m ≤ x → x < r → w x ≤ w r
  right : ∀ x, r < x → x ≤ n → w r ≤ w x

/-- What the scans have met at takes the place of the pivot, if it is greater. -/
theorem partedAt_of_loop {w : ℤ → A} {r : ℤ} (hvu : Permuted v u m n) (huw : Permuted u w m (n - 1))
    (hlo : m ≤ r) (hhi : r ≤ n - 1) (hleft : ∀ x, m ≤ x → x < r → w x < u n)
    (hright : ∀ x, r < x → x ≤ n - 1 → u n < w x) (hge : u n ≤ w r) :
    PartedAt v (if w r > u n then Function.update (Function.update w n (w r)) r (u n) else w) m n r := by
  have hlast : w n = u n := huw.outside (by omega)
  have hperm : Permuted v w m n := hvu.trans (huw.mono le_rfl (by omega))
  have hright' : ∀ x, r < x → x ≤ n → u n ≤ w x := by
    intro x hx hx'
    by_cases hn : x = n
    · rw [hn, hlast]
    · exact (hright x hx (by omega)).le
  by_cases hgt : w r > u n
  · rw [if_pos hgt, ← hlast]
    have hswap : Function.update (Function.update w n (w r)) r (w n) = swapAt w n r := rfl
    rw [hswap]
    refine ⟨hperm.trans (Permuted.swapAt w ⟨by omega, le_rfl⟩ ⟨hlo, by omega⟩), hlo, by omega, ?_, ?_⟩
    · intro x hx hx'
      rw [swapAt_right, hlast, swapAt_other w (by omega) (by omega)]
      exact (hleft x hx hx').le
    · intro x hx hx'
      rw [swapAt_right, hlast]
      by_cases hn : x = n
      · rw [hn, swapAt_left]
        exact hgt.le
      · rw [swapAt_other w hn (by omega)]
        exact hright' x hx hx'
  · have heq : w r = u n := le_antisymm (not_lt.mp hgt) hge
    rw [if_neg hgt]
    refine ⟨hperm, hlo, by omega, ?_, ?_⟩
    · intro x hx hx'
      rw [heq]
      exact (hleft x hx hx').le
    · intro x hx hx'
      rw [heq]
      exact hright' x hx hx'

/-- **THE PARTITION** of a range that has its pivot at most twice. -/
theorem partition_returns (hm : 0 ≤ m) (hmn : m + 2 ≤ n) (hsum : m + n ≤ INT32_MAX)
    (htwice : occurs v m n (pivotOf v m n) ≤ 2) {fuel : ℕ} (hfuel : 2 * (n - m).toNat ≤ fuel) :
    ∃ w r, partition fuel v m n = some (w, r) ∧ PartedAt v w m n r := by
  obtain ⟨u, hmedian, hvu, hpivot, x, hx, hx', hge⟩ := median3_spec (v := v) hm hmn hsum
  have honce : occurs u m (n - 1) (u n) ≤ 1 := by
    have hcard : occurs u m n (u n) = occurs v m n (u n) := hvu.countIn_eq (· = u n)
    have hmore := occurs_last (m := m) (n := n) (u := u) (by omega) rfl
    rw [← hpivot] at htwice
    omega
  obtain ⟨w, r, hloop, huw, hlo, hhi, hleft, hright, hge'⟩ := partitionLoop_returns
    (by omega : m ≤ n - 1) honce ⟨x, hx, hx', hge⟩ (by omega : 2 * (n - 1 - m).toNat + 1 < fuel)
  refine ⟨_, r, ?_, partedAt_of_loop hvu huw hlo hhi hleft hright hge'⟩
  unfold partition
  rw [if_pos (by omega), hmedian, Option.bind_some]
  dsimp only
  rw [hloop, Option.map_some]
  split
  · rfl
  · rfl

/-- Any other partition does not return. -/
theorem partition_never (hm : 0 ≤ m) (hmn : m + 2 ≤ n)
    (hbad : ¬ (m + n ≤ INT32_MAX ∧ occurs v m n (pivotOf v m n) ≤ 2)) (fuel : ℕ) :
    partition fuel v m n = none := by
  unfold partition
  rw [if_pos (by omega)]
  by_cases hsum : m + n ≤ INT32_MAX
  · obtain ⟨u, hmedian, hvu, hpivot, -⟩ := median3_spec (v := v) hm hmn hsum
    have htwice : 2 ≤ occurs u m (n - 1) (u n) := by
      have hcard : occurs u m n (u n) = occurs v m n (u n) := hvu.countIn_eq (· = u n)
      have hmore := occurs_last (m := m) (n := n) (u := u) (by omega) rfl
      have hthree : ¬ occurs v m n (pivotOf v m n) ≤ 2 := fun h => hbad ⟨hsum, h⟩
      rw [← hpivot] at hthree
      omega
    rw [hmedian, Option.bind_some]
    dsimp only
    rw [partitionLoop_never htwice]
    rfl
  · have hint : int32 (m + n) = none := int32_of_gt (not_le.mp hsum)
    unfold median3
    rw [hint]
    rfl

theorem partition_mono {fuel fuel' : ℕ} (hle : fuel ≤ fuel') {p : (ℤ → A) × ℤ}
    (h : partition fuel v m n = some p) : partition fuel' v m n = some p := by
  unfold partition at h ⊢
  by_cases hmn : m < n
  · rw [if_pos hmn] at h ⊢
    obtain ⟨u, hmedian, h⟩ := Option.bind_eq_some_iff.mp h
    obtain ⟨r, hloop, hr⟩ := Option.map_eq_some_iff.mp h
    rw [hmedian, Option.bind_some]
    exact Option.map_eq_some_iff.mpr ⟨r, loop_mono hle hloop, hr⟩
  · rw [if_neg hmn] at h ⊢
    exact h

end Partition

/-! ## §6. The calls. -/

section Calls

variable {v v' w : ℤ → A} {m n : ℤ}

/-- What a call that returns has done. -/
theorem quickWork_cases (hm : 0 ≤ m) {x : (ℤ → A) × List (ℤ × ℤ)} (h : quickWork (m, n) v = some x) :
    (n - m ≤ 20 ∧ StableSorted id v x.1 m n ∧ x.2 = [] ∧ Q_Insert_Sort id v m n = some x.1) ∨
    ∃ r, ¬ n - m ≤ 20 ∧ PartedAt v x.1 m n r ∧ x.2 = [(m, r - 1), (r + 1, n)] ∧
      partition (2 * (n - m).toNat) v m n = some (x.1, r) := by
  unfold quickWork at h
  by_cases hshort : n - m ≤ 20
  · rw [if_pos hshort] at h
    obtain ⟨w, hrun, rfl⟩ := Option.map_eq_some_iff.mp h
    refine Or.inl ⟨hshort, ?_, rfl, hrun⟩
    by_cases hfits : InsertFits id v m n
    · obtain ⟨w', hrun', hsorted⟩ := Q_Insert_Sort_eq_some hm hfits
      rw [Option.some.inj (hrun.symm.trans hrun')]
      exact hsorted
    · rw [Q_Insert_Sort_eq_none hm hfits] at hrun
      cases hrun
  rw [if_neg hshort] at h
  obtain ⟨p, hrun, rfl⟩ := Option.map_eq_some_iff.mp h
  refine Or.inr ⟨p.2, hshort, ?_, rfl, hrun⟩
  by_cases hfits : m + n ≤ INT32_MAX ∧ occurs v m n (pivotOf v m n) ≤ 2
  · obtain ⟨w, r, hrun', hparted⟩ := partition_returns hm (by omega) hfits.1 hfits.2 le_rfl
    rw [Option.some.inj (hrun.symm.trans hrun')]
    exact hparted
  · rw [partition_never hm (by omega) hfits] at hrun
    cases hrun

/-- **A call does its work if and only if it can.** -/
theorem quickWork_ne_none_iff {R : ℤ × ℤ} (hm : 0 ≤ R.1) : quickWork R v ≠ none ↔ CallFits v R := by
  unfold quickWork CallFits
  by_cases hshort : R.2 - R.1 ≤ 20
  · rw [if_pos hshort, if_pos hshort]
    by_cases hfits : InsertFits id v R.1 R.2
    · obtain ⟨w, hrun, -⟩ := Q_Insert_Sort_eq_some hm hfits
      rw [hrun]
      exact iff_of_true nofun hfits
    · rw [Q_Insert_Sort_eq_none hm hfits]
      exact iff_of_false (fun h => h rfl) hfits
  rw [if_neg hshort, if_neg hshort]
  by_cases hfits : R.1 + R.2 ≤ INT32_MAX ∧ occurs v R.1 R.2 (pivotOf v R.1 R.2) ≤ 2
  · obtain ⟨w, r, hrun, -⟩ := partition_returns hm (by omega) hfits.1 hfits.2 le_rfl
    rw [hrun]
    exact iff_of_true nofun hfits
  · rw [partition_never hm (by omega) hfits]
    exact iff_of_false (fun h => h rfl) hfits

theorem quickWork_sub (R : ℤ × ℤ) (v : ℤ → A) (x : (ℤ → A) × List (ℤ × ℤ)) (hR : 0 ≤ R.1)
    (h : quickWork R v = some x) : ∀ S ∈ x.2, 0 ≤ S.1 ∧ (S.2 - S.1 + 1).toNat < (R.2 - R.1 + 1).toNat := by
  obtain ⟨-, -, hnil, -⟩ | ⟨r, -, hparted, hcalls, -⟩ := quickWork_cases hR h
  · rw [hnil]
    exact fun S hS => absurd hS List.not_mem_nil
  have hlower := hparted.lower
  have hupper := hparted.upper
  rw [hcalls, List.forall_mem_cons, List.forall_mem_singleton]
  exact ⟨⟨hR, by omega⟩, by omega, by omega⟩

/-- More fuel changes nothing. -/
theorem Q_Quick_Sort_mono {fuel fuel' : ℕ} (hle : fuel ≤ fuel') :
    ∀ {v v' : ℤ → A} {m n : ℤ}, Q_Quick_Sort fuel v m n = some v' → Q_Quick_Sort fuel' v m n = some v' := by
  induction fuel generalizing fuel' with
  | zero =>
    intro v v' m n h
    cases h
  | succ fuel ih =>
    obtain ⟨k, rfl⟩ : ∃ k, fuel' = k + 1 := ⟨fuel' - 1, by omega⟩
    intro v v' m n h
    rw [Q_Quick_Sort] at h ⊢
    by_cases hshort : n - m ≤ 20
    · rw [if_pos hshort] at h ⊢
      exact h
    rw [if_neg hshort] at h ⊢
    obtain ⟨p, hp, h⟩ := Option.bind_eq_some_iff.mp h
    obtain ⟨w, hleft, hright⟩ := Option.bind_eq_some_iff.mp h
    rw [partition_mono (by omega) hp, Option.bind_some, ih (by omega) hleft, Option.bind_some]
    exact ih (by omega) hright

/-- **The function is the recursion** that does the work of the calls. -/
theorem recur_of_Q_Quick_Sort (fuel : ℕ) : ∀ {v v' : ℤ → A} {m n : ℤ}, 0 ≤ m →
    Q_Quick_Sort fuel v m n = some v' → ∃ fuel', recur quickWork fuel' (m, n) v = some v' := by
  induction fuel with
  | zero =>
    intro v v' m n _ h
    cases h
  | succ fuel ih =>
    intro v v' m n hm h
    rw [Q_Quick_Sort] at h
    by_cases hshort : n - m ≤ 20
    · rw [if_pos hshort] at h
      refine ⟨1, Option.bind_eq_some_iff.mpr ⟨(v', []), ?_, rfl⟩⟩
      rw [quickWork, if_pos hshort, h]
      rfl
    rw [if_neg hshort] at h
    obtain ⟨p, hp, h⟩ := Option.bind_eq_some_iff.mp h
    obtain ⟨w, hleft, hright⟩ := Option.bind_eq_some_iff.mp h
    -- the exchanges end within the fuel that the work gives them
    have hwork : quickWork (m, n) v ≠ none := by
      refine (quickWork_ne_none_iff hm).mpr ?_
      rw [CallFits, if_neg hshort]
      by_contra hbad
      rw [partition_never hm (by dsimp only; omega) hbad] at hp
      cases hp
    obtain ⟨x, hx⟩ := Option.ne_none_iff_exists'.mp hwork
    obtain ⟨hbad, -⟩ | ⟨r, -, hparted, hcalls, hrun⟩ := quickWork_cases hm hx
    · exact absurd hbad hshort
    have heq : p = (x.1, r) := by
      have hmax := partition_mono (Nat.le_max_left fuel (2 * (n - m).toNat)) hp
      rw [partition_mono (Nat.le_max_right fuel (2 * (n - m).toNat)) hrun] at hmax
      exact (Option.some.inj hmax).symm
    rw [heq] at hleft hright
    have hlower := hparted.lower
    obtain ⟨fuel₁, h₁⟩ := ih hm hleft
    obtain ⟨fuel₂, h₂⟩ := ih (by dsimp only; omega) hright
    refine ⟨max fuel₁ fuel₂ + 1, Option.bind_eq_some_iff.mpr ⟨x, hx, ?_⟩⟩
    rw [hcalls]
    exact Option.bind_eq_some_iff.mpr ⟨w, recur_mono (Nat.le_max_left _ _) _ _ _ h₁,
      Option.bind_eq_some_iff.mpr ⟨v', recur_mono (Nat.le_max_right _ _) _ _ _ h₂, rfl⟩⟩

theorem Q_Quick_Sort_of_recur (fuel : ℕ) : ∀ {v v' : ℤ → A} {m n : ℤ}, 0 ≤ m →
    recur quickWork fuel (m, n) v = some v' → ∃ fuel', Q_Quick_Sort fuel' v m n = some v' := by
  induction fuel with
  | zero =>
    intro v v' m n _ h
    cases h
  | succ fuel ih =>
    intro v v' m n hm h
    obtain ⟨x, hx, hsub⟩ := Option.bind_eq_some_iff.mp h
    obtain ⟨hshort, -, hnil, hrun⟩ | ⟨r, hshort, hparted, hcalls, hrun⟩ := quickWork_cases hm hx
    · rw [hnil] at hsub
      cases hsub
      refine ⟨1, ?_⟩
      rw [Q_Quick_Sort, if_pos hshort]
      exact hrun
    rw [hcalls] at hsub
    obtain ⟨w, hleft, hsub⟩ := Option.bind_eq_some_iff.mp hsub
    obtain ⟨w', hright, hend⟩ := Option.bind_eq_some_iff.mp hsub
    cases hend
    have hlower := hparted.lower
    obtain ⟨fuel₁, h₁⟩ := ih hm hleft
    obtain ⟨fuel₂, h₂⟩ := ih (by omega) hright
    refine ⟨max (2 * (n - m).toNat) (max fuel₁ fuel₂) + 1, ?_⟩
    rw [Q_Quick_Sort, if_neg hshort, partition_mono (by omega) hrun, Option.bind_some,
      Q_Quick_Sort_mono (by omega) h₁, Option.bind_some]
    exact Q_Quick_Sort_mono (by omega) h₂

/-- **WHAT RETURNS IS SORTED.** -/
theorem quickWork_sorts (fuel : ℕ) (R : ℤ × ℤ) (v v' : ℤ → A) (h : recur quickWork fuel R v = some v') :
    0 ≤ R.1 → Permuted v v' R.1 R.2 ∧ SortedOn v' R.1 R.2 := by
  refine recur_holds (P := fun R v v' => 0 ≤ R.1 → Permuted v v' R.1 R.2 ∧ SortedOn v' R.1 R.2)
    (fun R v x v' hwork hsub hR => ?_) fuel R v v' h
  obtain ⟨m, n⟩ := R
  obtain ⟨-, hsorted, hnil, -⟩ | ⟨r, -, hparted, hcalls, -⟩ := quickWork_cases hR hwork
  · rw [hnil] at hsub
    obtain rfl : x.1 = v' := hsub
    exact ⟨hsorted.1.permuted, hsorted.2⟩
  rw [hcalls] at hsub
  obtain ⟨w, hleft, w', hright, hend⟩ := hsub
  obtain rfl : w' = v' := hend
  have hlower := hparted.lower
  have hupper := hparted.upper
  obtain ⟨hperm₁, hsorted₁⟩ := hleft hR
  obtain ⟨hperm₂, hsorted₂⟩ := hright (by dsimp only; omega)
  refine ⟨(hparted.perm.trans (hperm₁.mono le_rfl (by omega))).trans
    (hperm₂.mono (by omega) le_rfl), ?_⟩
  -- the position of the pivot is outside of both calls
  have hmid : w' r = x.1 r :=
    (hperm₂.outside (by omega)).trans (hperm₁.outside (by omega))
  refine SortedOn.around (r := r) ?_ hsorted₂ ?_ ?_
  · intro i j hi hij hj
    rw [hperm₂.outside (by omega), hperm₂.outside (by omega)]
    exact hsorted₁ i j hi hij hj
  · intro i hi hi'
    rw [hmid, hperm₂.outside (by omega)]
    exact hperm₁.forall_inside (p := (· ≤ x.1 r))
      (fun j hj hj' => hparted.left j hj (by omega)) i hi (by omega)
  · intro i hi hi'
    rw [hmid]
    refine hperm₂.forall_inside (p := (x.1 r ≤ ·)) (fun j hj hj' => ?_) i (by omega) hi'
    rw [hperm₁.outside (by omega)]
    exact hparted.right j (by omega) hj'

end Calls

/-! ## §7. The sort. -/

section Sorting

variable {lBegin lEnd : ℤ}

/-- It returns if and only if every call can do its work. -/
theorem Q_Quick_Sort_returns_iff (v : ℤ → A) (hB : 0 ≤ lBegin) :
    (∃ fuel v', Q_Quick_Sort fuel v lBegin lEnd = some v') ↔ QuickFits v lBegin lEnd := by
  have hrecur := recur_returns_iff (I := fun R : ℤ × ℤ => 0 ≤ R.1)
    (fun R => (R.2 - R.1 + 1).toNat) quickWork_sub (t := (lBegin, lEnd)) hB v
  have hpos : ∀ R w k, ComesTo quickWork (lBegin, lEnd) v R w k → 0 ≤ R.1 := fun R w k hcall =>
    hcall.holds (I := fun R : ℤ × ℤ => 0 ≤ R.1)
      (fun R v x hR hwork S hS => (quickWork_sub R v x hR hwork S hS).1) hB
  have hfits : QuickFits v lBegin lEnd ↔
      ∀ R w k, ComesTo quickWork (lBegin, lEnd) v R w k → quickWork R w ≠ none :=
    forall₄_congr fun R w k hcall => (quickWork_ne_none_iff (hpos R w k hcall)).symm
  rw [hfits, ← hrecur]
  constructor
  · intro h
    obtain ⟨fuel, v', hrun⟩ := h
    obtain ⟨fuel', hrun'⟩ := recur_of_Q_Quick_Sort fuel hB hrun
    exact ⟨fuel', v', hrun'⟩
  · intro h
    obtain ⟨fuel, v', hrun⟩ := h
    obtain ⟨fuel', hrun'⟩ := Q_Quick_Sort_of_recur fuel hB hrun
    exact ⟨fuel', v', hrun'⟩

theorem quickSorts_iff (v : ℤ → A) (hB : 0 ≤ lBegin) :
    QuickSorts v lBegin lEnd ↔ QuickFits v lBegin lEnd := by
  rw [← Q_Quick_Sort_returns_iff v hB]
  constructor
  · intro h
    obtain ⟨fuel, v', hrun, -⟩ := h
    exact ⟨fuel, v', hrun⟩
  · intro h
    obtain ⟨fuel, v', hrun⟩ := h
    obtain ⟨fuel', hrun'⟩ := recur_of_Q_Quick_Sort fuel hB hrun
    exact ⟨fuel, v', hrun, quickWork_sorts fuel' (lBegin, lEnd) v v' hrun' hB⟩

/-- The sort of a vector is that of its elements. -/
theorem QVector.sorts_iff (q : QVector A) : q.Sorts ↔ QuickSorts q.data_ 0 q.last_ := by
  have hlast : q.size - 1 = q.last_ := add_sub_cancel_right _ _
  unfold QVector.Sorts QuickSorts QVector.sort
  rw [hlast]
  by_cases hmore : q.size > 1
  · simp only [if_pos hmore]
    constructor
    · intro h
      obtain ⟨fuel, q', hrun, -, hsorted⟩ := h
      obtain ⟨v', hv', rfl⟩ := Option.map_eq_some_iff.mp hrun
      exact ⟨fuel, v', hv', hsorted⟩
    · intro h
      obtain ⟨fuel, v', hv', hsorted⟩ := h
      exact ⟨fuel, _, Option.map_eq_some_iff.mpr ⟨v', hv', rfl⟩, rfl, hsorted⟩
  -- a vector of one element or none is sorted
  · have hsmall : q.last_ ≤ 0 := by
      omega
    have hsorted : SortedOn q.data_ 0 q.last_ := SortedOn.of_le hsmall
    simp only [if_neg hmore]
    refine iff_of_true ⟨0, q, rfl, rfl, Permuted.refl _ _ _, hsorted⟩ ?_
    have hfits : InsertFits id q.data_ 0 q.last_ :=
      ⟨by decide, fun i hi hi' => by omega⟩
    obtain ⟨v', hrun, hstable, hs⟩ := Q_Insert_Sort_eq_some le_rfl hfits
    refine ⟨1, v', ?_, hstable.permuted, hs⟩
    rw [Q_Quick_Sort, if_pos (by omega)]
    exact hrun

/-- **THE QUICKSORT**, for every array and every range: it returns, and sorts, if
    and only if every call can do its work; so does `QVector::sort`. -/
theorem Q_Quick_Sort_sorts_iff (v : ℤ → A) (hB : 0 ≤ lBegin) :
    (QuickSorts v lBegin lEnd ↔ QuickFits v lBegin lEnd) ∧
      ∀ q : QVector A, q.Sorts ↔ QuickFits q.data_ 0 q.last_ :=
  ⟨quickSorts_iff v hB, fun q => q.sorts_iff.trans (quickSorts_iff q.data_ le_rfl)⟩

end Sorting

/-- A call that fits with room to spare. -/
def callFitsShort (R : ℤ × ℤ) (v : ℤ → ℕ) : Bool :=
  if R.2 - R.1 ≤ 20 then decide (R.1 < INT32_MAX ∧ R.2 ≤ 2 ^ 30)
  else decide (R.1 + R.2 ≤ INT32_MAX ∧ occurs v R.1 R.2 (pivotOf v R.1 R.2) ≤ 2)

/-- What a run through the calls shows. -/
theorem quickFits_of_run {v v' : ℤ → ℕ} {lBegin lEnd : ℤ} (fuel : ℕ)
    (hrun : recur (tested callFitsShort quickWork) fuel (lBegin, lEnd) v = some v') : QuickFits v lBegin lEnd := by
  intro R w k hcall
  have hfits := hcall.of_tested hrun
  unfold callFitsShort at hfits
  unfold CallFits
  split at hfits
  case isTrue hshort =>
    rw [if_pos hshort]
    obtain ⟨hB, hE⟩ := of_decide_eq_true hfits
    exact insertFits_of_le id w hB hE
  case isFalse hlong =>
    rw [if_neg hlong]
    exact of_decide_eq_true hfits

/-- Thirty elements, each twice: 0, 4, 8, …, 1, 5, … -/
def thirtyElements (i : ℤ) : ℕ := (i * 4 % 15).toNat

theorem Q_Quick_Sort_sorts_iff_thirty : QuickSorts thirtyElements 0 29 :=
  (Q_Quick_Sort_sorts_iff thirtyElements le_rfl).1.mpr
    (quickFits_of_run 4 (Option.eq_some_of_isSome (by decide +kernel)))

/-- Twenty-two equal elements: the first partition exchanges them for ever. -/
theorem equal_elements_never_sorted : ¬ QuickSorts (fun _ => (0 : ℤ)) 0 21 := by
  rw [quickSorts_iff _ le_rfl]
  intro hfits
  have hcall := hfits (0, 21) _ 0 (ComesTo.here _ _)
  rw [CallFits, if_neg (by decide)] at hcall
  exact absurd hcall.2 (by decide)

end KalavaPir.Common.QuickSort
