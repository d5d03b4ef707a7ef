/-
  KalavaPir.Common.QPartitionCopies — what becomes of the copies of the middle element
  when a range is partitioned, `common/qalgorithm.h`.

  Both scans of the partition loop stop at an element that equals the middle one, and
  it is swapped to the other side.  So a copy may end up in either part.
-/
import KalavaPir.Framework.StableRange
import KalavaPir.Common.QUnrecursion

namespace KalavaPir.Common

open KalavaPir.Framework

/-! ## §1. Copies of the middle element. -/

section Copies

variable {K P Q : Type} [LinearOrder K] {a b : ℤ → K} {mid : K} {m n : ℤ}

/-- In front of the first copy of `mid` there are fewer elements that are greater
    than there are from it on that are not. -/
def CopyStays (a : ℤ → K) (mid : K) (m n : ℤ) : Prop :=
  ∃ f, m ≤ f ∧ f ≤ n ∧ a f = mid ∧ (∀ k, m ≤ k → k < f → a k ≠ mid) ∧
    countIn (mid < ·) a m (f - 1) < countIn (· ≤ mid) a f n

theorem not_copyStays (h : n < m) : ¬ CopyStays a mid m n := by
  intro hcopy
  obtain ⟨f, hlo, hhi, -⟩ := hcopy
  omega

theorem copyStays_congr (h : ∀ k, m ≤ k → k ≤ n → a k = b k) : CopyStays a mid m n ↔ CopyStays b mid m n := by
  refine exists_congr fun f => and_congr_right fun hlo => and_congr_right fun hhi => ?_
  rw [h f hlo hhi, countIn_congr (p := (mid < ·)) (q := (mid < ·)) (w := b),
    countIn_congr (p := (· ≤ mid)) (q := (· ≤ mid)) (w := b)]
  · refine and_congr_right fun _ => and_congr_left fun _ => ?_
    exact forall_congr' fun k => forall_congr' fun hk => forall_congr' fun hkf => by
      rw [h k hk (by omega)]
  · intro k hk hk'
    rw [h k (by omega) hk']
  · intro k hk hk'
    rw [h k hk (by omega)]

theorem CopyStays.of_first (hmn : m ≤ n) (h : a m = mid) : CopyStays a mid m n := by
  refine ⟨m, le_rfl, hmn, h, fun k hk hk' => by omega, ?_⟩
  rw [countIn_first (· ≤ mid) a hmn, if_pos h.le]
  have hnone : countIn (mid < ·) a m (m - 1) = 0 := countIn_empty _ a (by omega)
  omega

/-- A smaller element in front does not matter. -/
theorem copyStays_first_lt (h : a m < mid) : CopyStays a mid m n ↔ CopyStays a mid (m + 1) n := by
  constructor
  · intro hcopy
    obtain ⟨f, hlo, hhi, hf, hfirst, hcount⟩ := hcopy
    have hne : m ≠ f := by
      rintro rfl
      exact absurd hf h.ne
    rw [countIn_first _ a (by omega : m ≤ f - 1), if_neg h.not_gt, Nat.zero_add] at hcount
    exact ⟨f, by omega, hhi, hf, fun k hk hk' => hfirst k (by omega) hk', hcount⟩
  · intro hcopy
    obtain ⟨f, hlo, hhi, hf, hfirst, hcount⟩ := hcopy
    refine ⟨f, by omega, hhi, hf, fun k hk hk' => ?_, ?_⟩
    · by_cases hkm : k = m
      · rw [hkm]
        exact h.ne
      · exact hfirst k (by omega) hk'
    · rw [countIn_first _ a (by omega : m ≤ f - 1), if_neg h.not_gt, Nat.zero_add]
      exact hcount

/-- Nor does a greater one behind all others. -/
theorem copyStays_last_gt (h : mid < a n) : CopyStays a mid m n ↔ CopyStays a mid m (n - 1) := by
  constructor
  · intro hcopy
    obtain ⟨f, hlo, hhi, hf, hfirst, hcount⟩ := hcopy
    have hne : n ≠ f := by
      rintro rfl
      exact absurd hf h.ne'
    rw [countIn_last (· ≤ mid) a hhi, if_neg h.not_ge, Nat.add_zero] at hcount
    exact ⟨f, hlo, by omega, hf, hfirst, hcount⟩
  · intro hcopy
    obtain ⟨f, hlo, hhi, hf, hfirst, hcount⟩ := hcopy
    refine ⟨f, hlo, by omega, hf, hfirst, ?_⟩
    rw [countIn_last (· ≤ mid) a (by omega), if_neg h.not_ge, Nat.add_zero]
    exact hcount

/-- **The two that are swapped** make up for each other. -/
theorem copyStays_both (hmn : m < n) (h : mid < a m) (h' : a n ≤ mid) :
    CopyStays a mid m n ↔ CopyStays a mid (m + 1) (n - 1) := by
  have hless : ∀ f, m < f → countIn (mid < ·) a m (f - 1) = 1 + countIn (mid < ·) a (m + 1) (f - 1) :=
    fun f hf => by rw [countIn_first _ a (by omega : m ≤ f - 1), if_pos h]
  have hmore : ∀ f, f ≤ n → countIn (· ≤ mid) a f n = countIn (· ≤ mid) a f (n - 1) + 1 :=
    fun f hf => by rw [countIn_last (· ≤ mid) a hf, if_pos h']
  constructor
  · intro hcopy
    obtain ⟨f, hlo, hhi, hf, hfirst, hcount⟩ := hcopy
    have hne : m ≠ f := by
      rintro rfl
      exact absurd hf h.ne'
    rw [hless f (by omega), hmore f hhi] at hcount
    -- behind the copy there is at least one more
    have hlast : n ≠ f := by
      rintro rfl
      have hnone : countIn (· ≤ mid) a n (n - 1) = 0 := countIn_empty _ a (by omega)
      omega
    exact ⟨f, by omega, by omega, hf, fun k hk hk' => hfirst k (by omega) hk', by omega⟩
  · intro hcopy
    obtain ⟨f, hlo, hhi, hf, hfirst, hcount⟩ := hcopy
    refine ⟨f, by omega, by omega, hf, fun k hk hk' => ?_, ?_⟩
    · by_cases hkm : k = m
      · rw [hkm]
        exact h.ne'
      · exact hfirst k (by omega) hk'
    · rw [hless f (by omega), hmore f (by omega)]
      omega

/-- The elements that the scans pass. -/
theorem copyStays_scan {l r : ℤ} (hl : m ≤ l) (hr : r ≤ n)
    (hless : ∀ k, m ≤ k → k < l → a k < mid) (hmore : ∀ k, r < k → k ≤ n → mid < a k) :
    CopyStays a mid m n ↔ CopyStays a mid l r := by
  have hleft : ∀ k : ℕ, m + k ≤ l → (CopyStays a mid m n ↔ CopyStays a mid (m + k) n) := by
    intro k
    induction k with
    | zero => exact fun _ => by rw [Nat.cast_zero, add_zero]
    | succ k ih =>
      intro hk
      push_cast at hk ⊢
      rw [ih (by omega), copyStays_first_lt (hless (m + k) (by omega) (by omega)), add_assoc]
  have hright : ∀ k : ℕ, r ≤ n - k → (CopyStays a mid l n ↔ CopyStays a mid l (n - k)) := by
    intro k
    induction k with
    | zero => exact fun _ => by rw [Nat.cast_zero, sub_zero]
    | succ k ih =>
      intro hk
      push_cast at hk ⊢
      rw [ih (by omega), copyStays_last_gt (hmore (n - k) (by omega) (by omega)), sub_sub]
  rw [hleft (l - m).toNat (by omega), show m + ((l - m).toNat : ℤ) = l by omega,
    hright (n - r).toNat (by omega), show n - ((n - r).toNat : ℤ) = r by omega]

theorem copyStays_single : CopyStays a mid m m ↔ a m = mid := by
  constructor
  · intro hcopy
    obtain ⟨f, hlo, hhi, hf, -⟩ := hcopy
    rwa [show f = m by omega] at hf
  · exact CopyStays.of_first le_rfl

/-! ## §2. The partition. -/

theorem partLoop_window (mid : K) (k : ℕ) {p : PartState K P Q} (hle : p.lBegin ≤ p.lEnd)
    (hk : p.lEnd - p.lBegin ≤ k) :
    (∃ π, Moves p.lBegin p.lEnd π ∧ (partLoop mid k p).items = p.items.permute π) ∧
      p.lBegin ≤ (partLoop mid k p).lEnd ∧ (partLoop mid k p).lEnd ≤ p.lEnd := by
  have hstart : PartAt p.items p.lBegin p.lEnd mid p := PartAt.start p.items mid hle
  obtain ⟨h, hmet⟩ := hstart.loop k hk
  have hlower := h.lower
  exact ⟨h.perm, by omega, h.upper⟩

/-- **A round**: a copy of the middle element gets to the right of the positions, or
    the rest of the window decides. -/
theorem partLoop_copyStays (mid : K) (k : ℕ) : ∀ {p : PartState K P Q}, p.lBegin ≤ p.lEnd →
    p.lEnd - p.lBegin ≤ k →
    ((∃ j, (partLoop mid k p).lEnd ≤ j ∧ j ≤ p.lEnd ∧ (partLoop mid k p).items.tKey_1 j = mid) ↔
      CopyStays p.items.tKey_1 mid p.lBegin p.lEnd) := by
  -- a window of one element
  have hone : ∀ {k : ℕ} {p : PartState K P Q} {e : ℤ}, p.lBegin = p.lEnd → p.lEnd ≤ e →
      (∀ j, p.lEnd < j → j ≤ e → mid < p.items.tKey_1 j) →
      ((∃ j, (partLoop mid k p).lEnd ≤ j ∧ j ≤ e ∧ (partLoop mid k p).items.tKey_1 j = mid) ↔
        p.items.tKey_1 p.lEnd = mid) := by
    intro k p e hmet he hmore
    rw [partLoop_met mid k (not_lt.mpr hmet.ge)]
    constructor
    · intro h
      obtain ⟨j, hj, hje, heq⟩ := h
      by_cases hlast : j = p.lEnd
      · rwa [← hlast]
      · exact absurd heq (hmore j (by omega) hje).ne'
    · exact fun heq => ⟨p.lEnd, le_rfl, he, heq⟩
  induction k with
  | zero =>
    intro p hle hk
    have hmet : p.lBegin = p.lEnd := by
      omega
    rw [hone hmet le_rfl fun j hj hj' => by omega, hmet, copyStays_single]
  | succ k ih =>
    intro p hle hk
    by_cases hlt : p.lBegin < p.lEnd
    · obtain ⟨l, r, hlo, hlr, hhi, hless, hmore, hup, hdown, hcase⟩ := partRound_cases mid p hlt
      rw [copyStays_scan hlo hhi hless hmore, partLoop, if_pos hlt]
      obtain ⟨hmeet, hround⟩ | ⟨hswap, hround⟩ := hcase
      · -- the scans have met
        rw [hround, hmeet, copyStays_single]
        exact hone rfl hhi hmore
      rw [hround]
      have hbehind : ∀ j, r < j → j ≤ p.lEnd → mid < (p.items.swap l r).tKey_1 j := by
        intro j hj hj'
        rw [Parallel.swap_other _ (by omega) (by omega)]
        exact hmore j hj hj'
      have hright : (p.items.swap l r).tKey_1 r = p.items.tKey_1 l := Parallel.swap_right _ l r
      by_cases hnear : l + 1 < r
      · -- the rounds that follow do not reach what has been swapped
        rw [if_pos hnear]
        obtain ⟨⟨π, hπ, hitems⟩, -, hend⟩ := partLoop_window mid k
          (p := { items := p.items.swap l r, lBegin := l + 1, lEnd := r - 1 })
          (by dsimp only; omega) (by dsimp only; push_cast at hk; omega)
        have hwindow := ih (p := { items := p.items.swap l r, lBegin := l + 1, lEnd := r - 1 })
          (by dsimp only; omega) (by dsimp only; push_cast at hk; omega)
        dsimp only at hπ hitems hend hwindow
        generalize partLoop mid k { items := p.items.swap l r, lBegin := l + 1, lEnd := r - 1 } = q
          at hitems hend hwindow ⊢
        have hfixed : ∀ j, r ≤ j → q.items.tKey_1 j = (p.items.swap l r).tKey_1 j := by
          intro j hj
          rw [hitems]
          exact congrArg (p.items.swap l r).tKey_1 (hπ j (by omega))
        have hinner : CopyStays (p.items.swap l r).tKey_1 mid (l + 1) (r - 1) ↔
            CopyStays p.items.tKey_1 mid (l + 1) (r - 1) :=
          copyStays_congr fun j hj hj' => Parallel.swap_other _ (by omega) (by omega)
        by_cases hmid : p.items.tKey_1 l = mid
        · -- it is swapped to the right
          refine iff_of_true ⟨r, by omega, hhi, ?_⟩ (CopyStays.of_first hlr hmid)
          rw [hfixed r le_rfl, hright, hmid]
        -- nor does it matter who they were
        have hgt : mid < p.items.tKey_1 l := lt_of_le_of_ne (hup (by omega)) (Ne.symm hmid)
        rw [copyStays_both hswap hgt (hdown hswap), ← hinner, ← hwindow]
        refine exists_congr fun j => and_congr_right fun hj => and_congr_left fun heq => ?_
        refine ⟨fun hj' => ?_, fun hj' => by omega⟩
        by_contra hbad
        rw [hfixed j (by omega)] at heq
        by_cases hjr : j = r
        · rw [hjr, hright] at heq
          exact hmid heq
        · exact absurd heq (hbehind j (by omega) hj').ne'
      · -- the two were neighbours
        obtain rfl : r = l + 1 := by omega
        rw [if_neg hnear, hone rfl hhi hbehind, hright]
        by_cases hmid : p.items.tKey_1 l = mid
        · exact iff_of_true hmid (CopyStays.of_first hlr hmid)
        · have hgt : mid < p.items.tKey_1 l := lt_of_le_of_ne (hup (by omega)) (Ne.symm hmid)
          rw [copyStays_both hswap hgt (hdown hswap)]
          exact iff_of_false hmid (not_copyStays (by omega))
    · have hmet : p.lBegin = p.lEnd := by omega
      rw [hone hmet le_rfl fun j hj hj' => by omega, hmet, copyStays_single]

/-- **A COPY OF THE MIDDLE ELEMENT STAYS** in the right part of the partition. -/
theorem partition_copyStays_iff (s : Parallel K P Q) {m n : ℤ} (lMid : ℤ) (hmn : m ≤ n) :
    (∃ j, (partition s m n lMid).lEnd ≤ j ∧ j ≤ n ∧
      (partition s m n lMid).items.tKey_1 j = s.tKey_1 lMid) ↔ CopyStays s.tKey_1 (s.tKey_1 lMid) m n :=
  partLoop_copyStays (s.tKey_1 lMid) (n - m).toNat
    (p := { items := s, lBegin := m, lEnd := n }) hmn (by dsimp only; omega)

/-- The first element does not move if it is less than the middle one. -/
theorem partition_first_fixed (s : Parallel K P Q) {m n : ℤ} (lMid : ℤ) (hmn : m < n)
    (hless : s.tKey_1 m < s.tKey_1 lMid) :
    ∃ π, Moves (m + 1) n π ∧ (partition s m n lMid).items = s.permute π := by
  obtain ⟨k, hk⟩ : ∃ k, (n - m).toNat = k + 1 := ⟨(n - m).toNat - 1, by omega⟩
  obtain ⟨l, r, hlo, hlr, hhi, -, -, hup, -, hcase⟩ := partRound_cases (s.tKey_1 lMid)
    { items := s, lBegin := m, lEnd := n } hmn
  dsimp only at hlo hhi hup hcase
  -- the scan upwards passes it
  have hpast : m < l := by
    by_contra hbad
    have hl : l = m := by omega
    rw [hl] at hup
    exact absurd (hup hmn) (not_le.mpr hless)
  unfold partition
  rw [hk, partLoop, if_pos hmn]
  obtain ⟨hmeet, hround⟩ | ⟨hswap, hround⟩ := hcase
  · rw [hround, partLoop_met _ _ (by dsimp only; omega)]
    exact ⟨1, Moves.one _ _, rfl⟩
  rw [hround]
  have hends : l + 1 ≤ (if l + 1 < r then r - 1 else r) ∧ (if l + 1 < r then r - 1 else r) ≤ r := by
    split <;> omega
  generalize (if l + 1 < r then r - 1 else r) = r' at hends ⊢
  obtain ⟨⟨π, hπ, hitems⟩, -, -⟩ := partLoop_window (s.tKey_1 lMid) k
    (p := { items := s.swap l r, lBegin := l + 1, lEnd := r' }) hends.1 (by dsimp only; omega)
  dsimp only at hπ hitems
  rw [hitems, Parallel.swap_eq_permute, Parallel.permute_permute]
  refine ⟨_, Moves.mul (Moves.swap ?_ ?_) (hπ.mono ?_ ?_), rfl⟩ <;> omega

end Copies

end KalavaPir.Common
