/-
  KalavaPir.Common.QBinarySearch — the three binary searches, `common/qalgorithm.h`.

  `Q_Binary_Search_Default` and `Q_Binary_Search_Custom` are loops; the second
  one compares with a function.  `Q_Binary_Search_Recursion` keeps the answer of
  the inner call in the variable of the middle position.  All of them compute
  `(lBegin+lEnd)>>1` in 32 bits, for every range that they come to.
-/
import KalavaPir.Common.QAlgorithm

namespace KalavaPir.Common

open KalavaPir.Framework

variable {K : Type} [LinearOrder K]

/-! ## §1. The other two searches. -/

/-- qalgorithm.h:28 -/
def Compare_Key_Default (tKey1 tKey2 : K) : ℤ :=
  if tKey1 > tKey2 then 1 else if tKey1 < tKey2 then -1 else 0

/-- qalgorithm.h:87, with fuel for the depth of the recursion. -/
def Q_Binary_Search_Recursion (tpLibrary : ℤ → K) (tKey : K) : ℕ → ℤ → ℤ → Option ℤ
  | 0, _, _ => none
  | fuel + 1, lBegin, lEnd =>
    if lBegin > lEnd then some (-1)
    else
      let lMidVal := wrap32 (lBegin + lEnd) / 2
      if lMidVal < 0 then none
      else
        let tMidVal := tpLibrary lMidVal
        if tMidVal < tKey then Q_Binary_Search_Recursion tpLibrary tKey fuel (lMidVal + 1) lEnd
        else if tMidVal > tKey then
          Q_Binary_Search_Recursion tpLibrary tKey fuel lBegin (lMidVal - 1)
        else some lMidVal

/-- `while(lBegin<=lEnd)`, where the number is at least `lEnd-lBegin+1`. -/
def customRounds (tpLibrary : ℤ → K) (tKey : K) (Compare_Key : K → K → ℤ) : ℕ → ℤ → ℤ → Option ℤ
  | 0, _, _ => some (-1)
  | k + 1, lBegin, lEnd =>
    if lBegin ≤ lEnd then
      let lMidVal := wrap32 (lBegin + lEnd) / 2
      if lMidVal < 0 then none
      else
        let tMidVal := tpLibrary lMidVal
        if Compare_Key tMidVal tKey < 0 then
          customRounds tpLibrary tKey Compare_Key k (lMidVal + 1) lEnd
        else if Compare_Key tMidVal tKey > 0 then
          customRounds tpLibrary tKey Compare_Key k lBegin (lMidVal - 1)
        else some lMidVal
    else some (-1)

/-- qalgorithm.h:108 -/
def Q_Binary_Search_Custom (lBegin lEnd : ℤ) (tpLibrary : ℤ → K) (tKey : K)
    (Compare_Key : K → K → ℤ) : Option ℤ :=
  if lBegin > lEnd then some (-1)
  else customRounds tpLibrary tKey Compare_Key (lEnd - lBegin + 1).toNat lBegin lEnd

/-! ## §2. Searching on unbounded integers. -/

/-- The ranges that the search comes to in `k` rounds. -/
def searchRanges (a : ℤ → K) (tKey : K) : ℕ → ℤ → ℤ → List (ℤ × ℤ)
  | 0, _, _ => []
  | k + 1, l, r =>
    if l ≤ r then
      (l, r) :: (if a ((l + r) / 2) < tKey then searchRanges a tKey k ((l + r) / 2 + 1) r
        else if a ((l + r) / 2) > tKey then searchRanges a tKey k l ((l + r) / 2 - 1)
        else [])
    else []

/-- **The sums fit**: no range that the search comes to is too far up. -/
def SearchFits (l r : ℤ) (a : ℤ → K) (tKey : K) : Prop :=
  ∀ R ∈ searchRanges a tKey (r - l + 1).toNat l r, R.1 + R.2 < 2 ^ 31

instance (l r : ℤ) (a : ℤ → K) (tKey : K) : Decidable (SearchFits l r a tKey) :=
  inferInstanceAs (Decidable (∀ R ∈ searchRanges a tKey (r - l + 1).toNat l r, R.1 + R.2 < 2 ^ 31))

/-- The right answer: an index of the key, or -1 exactly when there is none. -/
structure IsAnswer (l r : ℤ) (a : ℤ → K) (tKey : K) (i : ℤ) : Prop where
  found : (∃ j, l ≤ j ∧ j ≤ r ∧ a j = tKey) → l ≤ i ∧ i ≤ r ∧ a i = tKey
  absent : i = -1 ↔ ∀ j, l ≤ j → j ≤ r → a j ≠ tKey

/-- **The three searches are right**: they return the same index, and it is the answer. -/
def SearchesRight (l r : ℤ) (a : ℤ → K) (tKey : K) : Prop :=
  ∃ i, Q_Binary_Search_Default l r a tKey = some i ∧
    (∃ fuel, Q_Binary_Search_Recursion a tKey fuel l r = some i) ∧
    Q_Binary_Search_Custom l r a tKey Compare_Key_Default = some i ∧ IsAnswer l r a tKey i

/-! ## §3. One search. -/

section Same

variable {a : ℤ → K} {tKey : K} {l r : ℤ}

@[simp] theorem Compare_Key_Default_neg {x y : K} : Compare_Key_Default x y < 0 ↔ x < y := by
  unfold Compare_Key_Default
  split
  next hgt => exact iff_of_false (by omega) (not_lt.mpr (le_of_lt hgt))
  next hgt =>
    split
    next hlt => exact iff_of_true (by omega) hlt
    next hlt => exact iff_of_false (by omega) hlt

@[simp] theorem Compare_Key_Default_pos {x y : K} : Compare_Key_Default x y > 0 ↔ x > y := by
  unfold Compare_Key_Default
  split
  next hgt => exact iff_of_true (by omega) hgt
  next hgt =>
    refine iff_of_false ?_ hgt
    split <;> omega

/-- ONE SEARCH: the three choose the same element. -/
theorem customRounds_eq (k : ℕ) : ∀ l r : ℤ,
    customRounds a tKey Compare_Key_Default k l r = searchRounds a tKey k l r := by
  induction k with
  | zero => exact fun _ _ => rfl
  | succ k ih =>
    intro l r
    unfold customRounds searchRounds
    simp only [Compare_Key_Default_neg, Compare_Key_Default_pos, ih]

theorem Q_Binary_Search_Custom_eq (l r : ℤ) :
    Q_Binary_Search_Custom l r a tKey Compare_Key_Default = Q_Binary_Search_Default l r a tKey := by
  unfold Q_Binary_Search_Custom Q_Binary_Search_Default
  rw [customRounds_eq]

/-- The recursion goes through the rounds of the loop. -/
theorem Q_Binary_Search_Recursion_eq (k : ℕ) : ∀ {l r : ℤ}, 0 ≤ l → r < 2 ^ 31 → r - l + 1 ≤ k →
    Q_Binary_Search_Recursion a tKey (k + 1) l r = searchRounds a tKey k l r := by
  induction k with
  | zero =>
    intro l r _ _ hk
    unfold Q_Binary_Search_Recursion
    rw [if_pos (by omega)]
    rfl
  | succ k ih =>
    intro l r hl hr hk
    unfold Q_Binary_Search_Recursion searchRounds
    by_cases hle : l ≤ r
    · rw [if_neg (by omega), if_pos hle]
      dsimp only
      obtain ⟨_, hmid⟩ | ⟨_, hneg⟩ := middle_cases hl hle hr
      · rw [hmid, ih (by omega : 0 ≤ (l + r) / 2 + 1) hr (by omega),
          ih hl (by omega : (l + r) / 2 - 1 < 2 ^ 31) (by omega)]
      · rw [if_pos hneg, if_pos hneg]
    · rw [if_pos (by omega), if_neg hle]

end Same

/-! ## §4. The search. -/

section Search

variable {a : ℤ → K} {tKey : K}

variable {l r i : ℤ}

omit [LinearOrder K] in
/-- Elements that are not the key do not matter. -/
theorem IsAnswer.widen {l' r' : ℤ} (h : IsAnswer l' r' a tKey i) (hl : l ≤ l') (hr : r' ≤ r)
    (hout : ∀ j, l ≤ j → j ≤ r → ¬ (l' ≤ j ∧ j ≤ r') → a j ≠ tKey) : IsAnswer l r a tKey i := by
  constructor
  · intro hfound
    obtain ⟨j, hlo, hhi, heq⟩ := hfound
    have hj : l' ≤ j ∧ j ≤ r' := by
      by_contra hbad
      exact hout j hlo hhi hbad heq
    obtain ⟨hlo', hhi', heq'⟩ := h.found ⟨j, hj.1, hj.2, heq⟩
    exact ⟨by omega, by omega, heq'⟩
  · rw [h.absent]
    constructor
    · intro hnone j hlo hhi
      by_cases hin : l' ≤ j ∧ j ≤ r'
      · exact hnone j hin.1 hin.2
      · exact hout j hlo hhi hin
    · exact fun hnone j hlo hhi => hnone j (by omega) (by omega)

theorem IsAnswer.right {mid : ℤ} (h : IsAnswer (mid + 1) r a tKey i) (hmid : l ≤ mid)
    (hsorted : SortedOn a l mid) (hlt : a mid < tKey) : IsAnswer l r a tKey i := by
  refine h.widen (by omega) (Int.le_refl r) fun j hj _ hout => ?_
  have hside : j ≤ mid := by omega
  exact ne_of_lt (lt_of_le_of_lt (hsorted j mid hj hside (Int.le_refl mid)) hlt)

theorem IsAnswer.left {mid : ℤ} (h : IsAnswer l (mid - 1) a tKey i) (hmid : mid ≤ r)
    (hsorted : SortedOn a mid r) (hgt : a mid > tKey) : IsAnswer l r a tKey i := by
  refine h.widen (Int.le_refl l) (by omega) fun j _ hj hout => ?_
  have hside : mid ≤ j := by omega
  exact ne_of_gt (lt_of_lt_of_le hgt (hsorted mid j (Int.le_refl mid) hside hj))

omit [LinearOrder K] in
theorem IsAnswer.empty (h : r < l) : IsAnswer l r a tKey (-1) where
  found hfound := by
    obtain ⟨j, hlo, hhi, -⟩ := hfound
    omega
  absent := iff_of_true rfl fun j hlo hhi => by omega

omit [LinearOrder K] in
theorem IsAnswer.here (hl : 0 ≤ l) (hlo : l ≤ i) (hhi : i ≤ r) (heq : a i = tKey) :
    IsAnswer l r a tKey i where
  found _ := ⟨hlo, hhi, heq⟩
  absent := iff_of_false (by omega) fun hnone => hnone i hlo hhi heq

/-- **THE SEARCH OF A SORTED RANGE**, while the sums fit. -/
theorem searchRounds_finds (k : ℕ) : ∀ {l r : ℤ}, 0 ≤ l → r < 2 ^ 31 → r - l + 1 ≤ k →
    SortedOn a l r → (∀ R ∈ searchRanges a tKey k l r, R.1 + R.2 < 2 ^ 31) →
    ∃ i, searchRounds a tKey k l r = some i ∧ IsAnswer l r a tKey i := by
  induction k with
  | zero =>
    intro l r _ _ hk _ _
    exact ⟨-1, rfl, IsAnswer.empty (by omega)⟩
  | succ k ih =>
    intro l r hl hr hk hsorted hfits
    unfold searchRounds
    by_cases hle : l ≤ r
    · unfold searchRanges at hfits
      rw [if_pos hle, List.forall_mem_cons] at hfits
      obtain ⟨hfit, hrest⟩ := hfits
      rw [if_pos hle]
      obtain ⟨_, hmid⟩ | ⟨hbad, _⟩ := middle_cases hl hle hr
      · rw [hmid, if_neg (by omega)]
        by_cases hlt : a ((l + r) / 2) < tKey
        · -- `lBegin=lMid+1`
          rw [if_pos hlt] at hrest ⊢
          obtain ⟨i, hrun, hans⟩ := ih (by omega : 0 ≤ (l + r) / 2 + 1) hr (by omega)
            (hsorted.mono (by omega) (Int.le_refl r)) hrest
          exact ⟨i, hrun, hans.right (by omega) (hsorted.mono (Int.le_refl l) (by omega)) hlt⟩
        rw [if_neg hlt] at hrest ⊢
        by_cases hgt : a ((l + r) / 2) > tKey
        · -- `lEnd=lMid-1`
          rw [if_pos hgt] at hrest ⊢
          obtain ⟨i, hrun, hans⟩ := ih hl (by omega : (l + r) / 2 - 1 < 2 ^ 31) (by omega)
            (hsorted.mono (Int.le_refl l) (by omega)) hrest
          exact ⟨i, hrun, hans.left (by omega) (hsorted.mono (by omega) (Int.le_refl r)) hgt⟩
        · rw [if_neg hgt]
          exact ⟨_, rfl, IsAnswer.here hl (by omega) (by omega)
            (le_antisymm (not_lt.mp hgt) (not_lt.mp hlt))⟩
      · exact absurd hfit (by dsimp only; omega)
    · rw [if_neg hle]
      exact ⟨-1, rfl, IsAnswer.empty (by omega)⟩

/-- **A SUM THAT DOES NOT FIT**: the search reads outside of the array. -/
theorem searchRounds_fails (k : ℕ) : ∀ {l r : ℤ}, 0 ≤ l → r < 2 ^ 31 →
    (∃ R ∈ searchRanges a tKey k l r, 2 ^ 31 ≤ R.1 + R.2) → searchRounds a tKey k l r = none := by
  induction k with
  | zero =>
    intro l r _ _ hbad
    obtain ⟨R, hR, -⟩ := hbad
    cases hR
  | succ k ih =>
    intro l r hl hr hbad
    unfold searchRounds
    obtain ⟨R, hR, hsum⟩ := hbad
    unfold searchRanges at hR
    by_cases hle : l ≤ r
    · rw [if_pos hle, List.mem_cons] at hR
      rw [if_pos hle]
      obtain ⟨hfit, hmid⟩ | ⟨_, hneg⟩ := middle_cases hl hle hr
      · -- the range is a later one
        have hlater := hR.resolve_left (fun heq => by rw [heq] at hsum; dsimp only at hsum; omega)
        rw [hmid, if_neg (by omega)]
        by_cases hlt : a ((l + r) / 2) < tKey
        · rw [if_pos hlt] at hlater ⊢
          exact ih (by omega) hr ⟨R, hlater, hsum⟩
        rw [if_neg hlt] at hlater ⊢
        by_cases hgt : a ((l + r) / 2) > tKey
        · rw [if_pos hgt] at hlater ⊢
          exact ih hl (by omega) ⟨R, hlater, hsum⟩
        · rw [if_neg hgt] at hlater
          cases hlater
      · rw [if_pos hneg]
    · rw [if_neg hle] at hR
      cases hR

end Search

/-- **THE THREE BINARY SEARCHES**, for every sorted range: they are right if and
    only if the sums fit. -/
theorem Q_Binary_Search_right_iff {a : ℤ → K} (tKey : K) {lBegin lEnd : ℤ} (hBegin : 0 ≤ lBegin)
    (hEnd : lBegin ≤ lEnd + 1) (hsum : lBegin + lEnd ≤ 2 ^ 31 - 1) (hsorted : SortedOn a lBegin lEnd) :
    SearchesRight lBegin lEnd a tKey ↔ SearchFits lBegin lEnd a tKey := by
  have hr : lEnd < 2 ^ 31 := by omega
  have hdefault : Q_Binary_Search_Default lBegin lEnd a tKey =
      searchRounds a tKey (lEnd - lBegin + 1).toNat lBegin lEnd := by
    unfold Q_Binary_Search_Default
    by_cases hgt : lBegin > lEnd
    · rw [if_pos hgt, show (lEnd - lBegin + 1).toNat = 0 by omega]
      rfl
    · rw [if_neg hgt]
  constructor
  · intro hright
    obtain ⟨i, hrun, -⟩ := hright
    by_contra hfits
    unfold SearchFits at hfits
    push Not at hfits
    rw [hdefault, searchRounds_fails _ hBegin hr hfits] at hrun
    cases hrun
  · intro hfits
    obtain ⟨i, hrun, hans⟩ := searchRounds_finds _ hBegin hr (by omega) hsorted hfits
    refine ⟨i, by rw [hdefault, hrun], ⟨(lEnd - lBegin + 1).toNat + 1, ?_⟩, ?_, hans⟩
    · rw [Q_Binary_Search_Recursion_eq _ hBegin hr (by omega), hrun]
    · rw [Q_Binary_Search_Custom_eq, hdefault, hrun]

/-- Five elements with duplicates. -/
theorem Q_Binary_Search_right_iff_five :
    (0 : ℤ) ≤ 4 ∧ (SearchesRight 0 4 (fun i => i / 2) (1 : ℤ) ↔ SearchFits 0 4 (fun i => i / 2) (1 : ℤ)) :=
  ⟨by decide, Q_Binary_Search_right_iff 1 (by decide) (by decide) (by decide)
    (fun i j _ hij _ => Int.ediv_le_ediv (by decide) hij)⟩

/-- **THE LAST KEY** of 2³⁰+1 ascending ones: the sum of the range that has only
    this element is 2³¹. -/
theorem Q_Binary_Search_last_key :
    (∀ i j : ℤ, 0 ≤ i → i ≤ j → j ≤ 2 ^ 30 → id i ≤ id j) ∧ (0 : ℤ) + 2 ^ 30 ≤ 2 ^ 31 - 1 ∧
      Q_Binary_Search_Default 0 (2 ^ 30) (id : ℤ → ℤ) (2 ^ 30) = none ∧
      ¬ SearchesRight 0 (2 ^ 30) (id : ℤ → ℤ) (2 ^ 30) := by
  have hnone : Q_Binary_Search_Default 0 (2 ^ 30) (id : ℤ → ℤ) (2 ^ 30) = none :=
    Q_Binary_Search_Default_overflow (by omega) (by omega) fun i _ hlt => hlt
  refine ⟨fun i j _ hij _ => hij, by decide, hnone, ?_⟩
  intro hright
  obtain ⟨i, hrun, -⟩ := hright
  rw [hnone] at hrun
  cases hrun

end KalavaPir.Common
