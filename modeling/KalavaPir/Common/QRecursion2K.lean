/-
  KalavaPir.Common.QRecursion2K — the recursive sort by two keys, `common/qalgorithm.h`.

  `Compare_2K` compares the second keys only where the first ones are equal, and
  then returns `-1` for the smaller as well as for the greater one.  So every pair
  with the first key of the middle pair, and another second key, goes to the left
  of the middle pair; and two neighbours with equal first keys are never swapped.

  Towards a fixed middle pair the comparison is that of a linear order, with the
  pairs of the same first key below it: the partition is the one of
  `Q_Recursion_1K_2P` by ranks.
-/
import KalavaPir.Framework.CallTree
import KalavaPir.Common.QPartitionCopies
import KalavaPir.Common.QRecursion
import Mathlib.Data.Prod.Lex

namespace KalavaPir.Common

open KalavaPir.Framework

/-! ## §1. `Compare_2K` (qalgorithm.h:523) and `Q_Recursion_2K` (qalgorithm.h:1328). -/

variable {K P Q : Type} [LinearOrder K] [LinearOrder P]

section Source

/-- The first key decides, then the second. -/
def Compare_2K (key_1_1 key_1_2 : K) (key_2_1 key_2_2 : P) : ℤ :=
  if key_1_1 > key_1_2 then 1
  else if key_1_1 < key_1_2 then -1
  else if key_2_1 > key_2_2 then -1
  else if key_2_1 < key_2_2 then -1
  else 0

/-- `Compare_2K` of the pair at a position and the middle one. -/
def compareAt (s : Parallel K P Unit) (tMid_1 : K) (tMid_2 : P) (i : ℤ) : ℤ :=
  Compare_2K (s.tKey_1 i) tMid_1 (s.tKey_2 i) tMid_2

/-- `while(lBegin<lEnd&&Compare_2K(…)<0) lBegin++;`, where the number is
    `lEnd-lBegin`. -/
def scanUp_2K (s : Parallel K P Unit) (tMid_1 : K) (tMid_2 : P) : ℕ → ℤ → ℤ
  | 0, lBegin => lBegin
  | k + 1, lBegin =>
    if compareAt s tMid_1 tMid_2 lBegin < 0 then scanUp_2K s tMid_1 tMid_2 k (lBegin + 1) else lBegin

/-- `while(lBegin<lEnd&&Compare_2K(…)>0) lEnd--;` -/
def scanDown_2K (s : Parallel K P Unit) (tMid_1 : K) (tMid_2 : P) : ℕ → ℤ → ℤ
  | 0, lEnd => lEnd
  | k + 1, lEnd =>
    if compareAt s tMid_1 tMid_2 lEnd > 0 then scanDown_2K s tMid_1 tMid_2 k (lEnd - 1) else lEnd

/-- The body of `while(lBegin<lEnd)`. -/
def partRound_2K (tMid_1 : K) (tMid_2 : P) (p : PartState K P Unit) : PartState K P Unit :=
  let lBegin := scanUp_2K p.items tMid_1 tMid_2 (p.lEnd - p.lBegin).toNat p.lBegin
  let lEnd := scanDown_2K p.items tMid_1 tMid_2 (p.lEnd - lBegin).toNat p.lEnd
  if lBegin < lEnd then
    { items := p.items.swap lBegin lEnd
      lBegin := lBegin + 1
      lEnd := if lBegin + 1 < lEnd then lEnd - 1 else lEnd }
  else { items := p.items, lBegin := lBegin, lEnd := lEnd }

/-- The scans of a partition. -/
def partLoop_2K (tMid_1 : K) (tMid_2 : P) : ℕ → PartState K P Unit → PartState K P Unit
  | 0, p => p
  | k + 1, p =>
    if p.lBegin < p.lEnd then partLoop_2K tMid_1 tMid_2 k (partRound_2K tMid_1 tMid_2 p) else p

/-- The loop from the whole range. -/
def partition_2K (s : Parallel K P Unit) (m n lMid : ℤ) : PartState K P Unit :=
  partLoop_2K (s.tKey_1 lMid) (s.tKey_2 lMid) (n - m).toNat { items := s, lBegin := m, lEnd := n }

/-- `if(Compare_2K(…)<0) lBegin++;` -/
def pastMiddle_2K (p : PartState K P Unit) (tMid_1 : K) (tMid_2 : P) : ℤ :=
  if compareAt p.items tMid_1 tMid_2 p.lBegin < 0 then p.lBegin + 1 else p.lBegin

/-- The function, with fuel for the depth of the recursion. -/
def Q_Recursion_2K : ℕ → ℤ → ℤ → Parallel K P Unit → Option (Parallel K P Unit)
  | 0, _, _, _ => none
  | fuel + 1, m, n, s =>
    if m ≥ n then some s
    else if m + 1 = n then
      if Compare_2K (s.tKey_1 m) (s.tKey_1 n) (s.tKey_2 m) (s.tKey_2 n) > 0 then some (s.swap m n)
      else some s
    else
      let lMid := wrap32 (m + n) / 2
      if lMid < 0 then none
      else
        let p := partition_2K s m n lMid
        let lBegin := pastMiddle_2K p (s.tKey_1 lMid) (s.tKey_2 lMid)
        let left := if lBegin - 1 > m then Q_Recursion_2K fuel m (lBegin - 1) p.items else some p.items
        left.bind fun s => if p.lEnd < n then Q_Recursion_2K fuel p.lEnd n s else some s

/-- What becomes of a range before its parts are sorted, on unbounded integers. -/
def sortStep_2K (R : ℤ × ℤ) (s : Parallel K P Unit) : Parallel K P Unit × List (ℤ × ℤ) :=
  if R.1 ≥ R.2 then (s, [])
  else if R.1 + 1 = R.2 then
    (if Compare_2K (s.tKey_1 R.1) (s.tKey_1 R.2) (s.tKey_2 R.1) (s.tKey_2 R.2) > 0 then s.swap R.1 R.2
      else s, [])
  else
    let lMid := (R.1 + R.2) / 2
    let p := partition_2K s R.1 R.2 lMid
    (p.items, partsOf R.1 R.2 (pastMiddle_2K p (s.tKey_1 lMid) (s.tKey_2 lMid)) p.lEnd)

/-- The work of a call. -/
def work_2K : ℤ × ℤ → Parallel K P Unit → Option (Parallel K P Unit × List (ℤ × ℤ)) :=
  guarded SumFits sortStep_2K

end Source

/-! ## §2. What is to be sorted, and when a call does its part. -/

/-- The pair at a position. -/
def Parallel.pair (s : Parallel K P Q) (i : ℤ) : K × P := (s.tKey_1 i, s.tKey_2 i)

/-- The direction of the second key. -/
inductive Direction
  | ascending
  | descending

/-- The order of a direction. -/
def Direction.le (d : Direction) (x y : P) : Prop :=
  match d with
  | .ascending => x ≤ y
  | .descending => y ≤ x

/-- The order of pairs. -/
def PairLe (d : Direction) (x y : K × P) : Prop := x.1 < y.1 ∨ x.1 = y.1 ∧ d.le x.2 y.2

/-- Sorted by both keys. -/
def SortedBy2K (d : Direction) (s : Parallel K P Unit) (m n : ℤ) : Prop :=
  ∀ i j, m ≤ i → i ≤ j → j ≤ n → PairLe d (s.pair i) (s.pair j)

/-- A copy of the pair at `lMid` stays in the right part. -/
def PairStays (s : Parallel K P Unit) (m n lMid : ℤ) : Prop :=
  ∃ f, m ≤ f ∧ f ≤ n ∧ s.pair f = s.pair lMid ∧ (∀ k, m ≤ k → k < f → s.pair k ≠ s.pair lMid) ∧
    countIn (s.tKey_1 lMid < ·) s.tKey_1 m (f - 1) < countIn (· ≤ s.tKey_1 lMid) s.tKey_1 f n

/-- A call leaves no two pairs with equal first keys in the wrong order: two
    neighbours are in order; and where a copy of the middle pair stays in the right
    part, the pairs that go to its left belong there. -/
def OrdersEqual (d : Direction) (R : ℤ × ℤ) (s : Parallel K P Unit) : Prop :=
  (R.1 + 1 = R.2 → s.tKey_1 R.1 = s.tKey_1 R.2 → d.le (s.tKey_2 R.1) (s.tKey_2 R.2)) ∧
    (R.1 + 1 < R.2 → PairStays s R.1 R.2 ((R.1 + R.2) / 2) → ∀ i, R.1 ≤ i → i ≤ R.2 →
      s.tKey_1 i = s.tKey_1 ((R.1 + R.2) / 2) → d.le (s.tKey_2 i) (s.tKey_2 ((R.1 + R.2) / 2)))

/-- **A call does its part**, and its sum is an `int32_t`. -/
def CallSorts (d : Direction) (R : ℤ × ℤ) (s : Parallel K P Unit) : Prop :=
  SumFits R ∧ OrdersEqual d R s

/-- The sort returns, has permuted the pairs of the range, and they are sorted. -/
def Sorts2K (d : Direction) (s : Parallel K P Unit) (lBegin lEnd : ℤ) : Prop :=
  ∃ fuel s', Q_Recursion_2K fuel lBegin lEnd s = some s' ∧
    Permuted s.pair s'.pair lBegin lEnd ∧ SortedBy2K d s' lBegin lEnd

/-! ## §3. The comparison by ranks. -/

/-- The rank of a pair towards a middle one: pairs with its first key and another
    second key are below it. -/
def rankIn (tMid_2 : P) (key_1 : K) (key_2 : P) : K ×ₗ ℕ :=
  toLex (key_1, if key_2 = tMid_2 then 1 else 0)

/-- The ranks, with both keys. -/
def ranked (tMid_2 : P) (s : Parallel K P Unit) : Parallel (K ×ₗ ℕ) K P where
  tKey_1 := fun i => rankIn tMid_2 (s.tKey_1 i) (s.tKey_2 i)
  tKey_2 := s.tKey_1
  tKey_3 := s.tKey_2

/-- The same scans, of the ranks. -/
def rankedPart (tMid_2 : P) (p : PartState K P Unit) : PartState (K ×ₗ ℕ) K P where
  items := ranked tMid_2 p.items
  lBegin := p.lBegin
  lEnd := p.lEnd

section Ranks

variable {key_1 tMid_1 : K} {key_2 tMid_2 : P}

theorem rankIn_lt_mid : rankIn tMid_2 key_1 key_2 < rankIn tMid_2 tMid_1 tMid_2 ↔
    key_1 < tMid_1 ∨ key_1 = tMid_1 ∧ key_2 ≠ tMid_2 := by
  unfold rankIn
  rw [Prod.Lex.toLex_lt_toLex, if_pos rfl]
  by_cases heq : key_2 = tMid_2
  · rw [if_pos heq]
    simp [heq]
  · rw [if_neg heq]
    simp [heq]

theorem mid_lt_rankIn : rankIn tMid_2 tMid_1 tMid_2 < rankIn tMid_2 key_1 key_2 ↔ tMid_1 < key_1 := by
  unfold rankIn
  rw [Prod.Lex.toLex_lt_toLex, if_pos rfl]
  by_cases heq : key_2 = tMid_2
  · rw [if_pos heq]
    simp
  · rw [if_neg heq]
    simp

omit [LinearOrder K] in
theorem rankIn_eq_mid : rankIn tMid_2 key_1 key_2 = rankIn tMid_2 tMid_1 tMid_2 ↔
    (key_1, key_2) = (tMid_1, tMid_2) := by
  unfold rankIn
  by_cases heq : key_2 = tMid_2
  · simp [heq]
  · simp [heq]

theorem mid_le_rankIn : rankIn tMid_2 tMid_1 tMid_2 ≤ rankIn tMid_2 key_1 key_2 ↔
    tMid_1 < key_1 ∨ (key_1, key_2) = (tMid_1, tMid_2) := by
  rw [← not_lt, rankIn_lt_mid, Prod.mk.injEq]
  constructor
  · intro h
    by_cases hgt : tMid_1 < key_1
    · exact Or.inl hgt
    · have heq : key_1 = tMid_1 := le_antisymm (not_lt.mp hgt) (not_lt.mp fun hlt => h (Or.inl hlt))
      exact Or.inr ⟨heq, not_not.mp fun hne => h (Or.inr ⟨heq, hne⟩)⟩
  · rintro (hgt | ⟨rfl, rfl⟩)
    · exact fun h => h.elim hgt.not_gt fun h => hgt.ne' h.1
    · exact fun h => h.elim (lt_irrefl _) fun h => h.2 rfl

theorem compare_2K_neg : Compare_2K key_1 tMid_1 key_2 tMid_2 < 0 ↔
    rankIn tMid_2 key_1 key_2 < rankIn tMid_2 tMid_1 tMid_2 := by
  rw [rankIn_lt_mid]
  unfold Compare_2K
  split_ifs with h1 h2 h3 h4
  · exact iff_of_false (by decide) fun h => h.elim (fun h => absurd h h1.not_gt) fun h => h1.ne' h.1
  · exact iff_of_true (by decide) (Or.inl h2)
  · exact iff_of_true (by decide) (Or.inr ⟨le_antisymm (not_lt.mp h1) (not_lt.mp h2), h3.ne'⟩)
  · exact iff_of_true (by decide) (Or.inr ⟨le_antisymm (not_lt.mp h1) (not_lt.mp h2), h4.ne⟩)
  · exact iff_of_false (by decide) fun h => h.elim h2 fun h =>
      h.2 (le_antisymm (not_lt.mp h3) (not_lt.mp h4))

theorem compare_2K_pos : Compare_2K key_1 tMid_1 key_2 tMid_2 > 0 ↔ tMid_1 < key_1 := by
  unfold Compare_2K
  split_ifs with h1 h2 h3 h4
  · exact iff_of_true (by decide) h1
  all_goals exact iff_of_false (by decide) h1

omit [LinearOrder K] in
theorem ranked_swap (s : Parallel K P Unit) (i j : ℤ) :
    ranked tMid_2 (s.swap i j) = (ranked tMid_2 s).swap i j := by
  rw [Parallel.swap_eq_permute, Parallel.swap_eq_permute]
  rfl

theorem scanUp_2K_eq (s : Parallel K P Unit) (k : ℕ) : ∀ l : ℤ, scanUp_2K s tMid_1 tMid_2 k l =
    scanUp (ranked tMid_2 s).tKey_1 (rankIn tMid_2 tMid_1 tMid_2) k l := by
  induction k with
  | zero => exact fun _ => rfl
  | succ k ih =>
    intro l
    rw [scanUp_2K, scanUp, ih]
    exact if_congr compare_2K_neg rfl rfl

theorem scanDown_2K_eq (s : Parallel K P Unit) (k : ℕ) : ∀ r : ℤ, scanDown_2K s tMid_1 tMid_2 k r =
    scanDown (ranked tMid_2 s).tKey_1 (rankIn tMid_2 tMid_1 tMid_2) k r := by
  induction k with
  | zero => exact fun _ => rfl
  | succ k ih =>
    intro r
    rw [scanDown_2K, scanDown, ih]
    exact if_congr (compare_2K_pos.trans mid_lt_rankIn.symm) rfl rfl

theorem partRound_2K_eq (p : PartState K P Unit) : rankedPart tMid_2 (partRound_2K tMid_1 tMid_2 p) =
    partRound (rankIn tMid_2 tMid_1 tMid_2) (rankedPart tMid_2 p) := by
  unfold partRound_2K partRound
  dsimp only [rankedPart]
  rw [scanUp_2K_eq, scanDown_2K_eq]
  generalize scanUp (ranked tMid_2 p.items).tKey_1 (rankIn tMid_2 tMid_1 tMid_2)
    (p.lEnd - p.lBegin).toNat p.lBegin = l
  generalize scanDown (ranked tMid_2 p.items).tKey_1 (rankIn tMid_2 tMid_1 tMid_2)
    (p.lEnd - l).toNat p.lEnd = r
  by_cases hlt : l < r
  · rw [if_pos hlt, if_pos hlt, ranked_swap]
  · rw [if_neg hlt, if_neg hlt]

theorem partLoop_2K_eq (k : ℕ) : ∀ p : PartState K P Unit, rankedPart tMid_2 (partLoop_2K tMid_1 tMid_2 k p) =
      partLoop (rankIn tMid_2 tMid_1 tMid_2) k (rankedPart tMid_2 p) := by
  induction k with
  | zero => exact fun _ => rfl
  | succ k ih =>
    intro p
    rw [partLoop_2K, partLoop, ← partRound_2K_eq, ← ih]
    exact apply_ite _ _ _ _

/-- **THE PARTITION** is the one by ranks. -/
theorem partition_2K_eq (s : Parallel K P Unit) (m n lMid : ℤ) :
    rankedPart (s.tKey_2 lMid) (partition_2K s m n lMid) = partition (ranked (s.tKey_2 lMid) s) m n lMid :=
  partLoop_2K_eq (n - m).toNat { items := s, lBegin := m, lEnd := n }

end Ranks

/-! ## §4. A range and its parts. -/

/-- The range from `m` to `n` has been partitioned at `p.lEnd`; the left part ends
    before `l`. -/
structure Split (s : Parallel K P Unit) (m n lMid : ℤ) (p : PartState K P Unit) (l : ℤ) : Prop where
  perm : Permuted s.pair p.items.pair m n
  lower : m < p.lEnd
  upper : p.lEnd ≤ n
  parts : l = p.lEnd ∨ l = p.lEnd + 1 ∧ p.lEnd < n
  left : ∀ i, m ≤ i → i < l → p.items.tKey_1 i ≤ s.tKey_1 lMid
  right : ∀ i, l ≤ i → i ≤ n → s.tKey_1 lMid < p.items.tKey_1 i ∨ p.items.pair i = s.pair lMid
  copies : (∃ i, l ≤ i ∧ i ≤ n ∧ p.items.pair i = s.pair lMid) ↔ PairStays s m n lMid
  first : s.tKey_1 m ≤ s.tKey_1 lMid → s.pair m ≠ s.pair lMid →
    ∃ π, Moves (m + 1) n π ∧ p.items.pair = s.pair ∘ π

section Parts

variable {s : Parallel K P Unit} {m n lMid : ℤ}

/-- A copy of the middle pair is one by ranks. -/
theorem pairStays_iff (s : Parallel K P Unit) (m n lMid : ℤ) : PairStays s m n lMid ↔
    CopyStays (ranked (s.tKey_2 lMid) s).tKey_1 ((ranked (s.tKey_2 lMid) s).tKey_1 lMid) m n := by
  have heq : ∀ i, (ranked (s.tKey_2 lMid) s).tKey_1 i = (ranked (s.tKey_2 lMid) s).tKey_1 lMid ↔
      s.pair i = s.pair lMid := fun i => rankIn_eq_mid
  have hless : ∀ i, (ranked (s.tKey_2 lMid) s).tKey_1 lMid < (ranked (s.tKey_2 lMid) s).tKey_1 i ↔
      s.tKey_1 lMid < s.tKey_1 i := fun i => mid_lt_rankIn
  refine exists_congr fun f => and_congr_right fun _ => and_congr_right fun _ => ?_
  have hfront : countIn (s.tKey_1 lMid < ·) s.tKey_1 m (f - 1) =
      countIn ((ranked (s.tKey_2 lMid) s).tKey_1 lMid < ·) (ranked (s.tKey_2 lMid) s).tKey_1 m (f - 1) :=
    countIn_congr fun k _ _ => (hless k).symm
  have hbehind : countIn (· ≤ s.tKey_1 lMid) s.tKey_1 f n =
      countIn (· ≤ (ranked (s.tKey_2 lMid) s).tKey_1 lMid) (ranked (s.tKey_2 lMid) s).tKey_1 f n :=
    countIn_congr fun k _ _ => (not_lt.symm.trans (not_congr (hless k).symm)).trans not_lt
  rw [hfront, hbehind]
  refine and_congr (heq f).symm (and_congr_left fun _ => ?_)
  exact forall_congr' fun k => forall_congr' fun _ => forall_congr' fun _ => not_congr (heq k).symm

/-- **WHAT THE PARTITION HANDS ON.** -/
theorem partition_2K_split (s : Parallel K P Unit) (hm : m < lMid) (hn : lMid < n) :
    Split s m n lMid (partition_2K s m n lMid)
      (pastMiddle_2K (partition_2K s m n lMid) (s.tKey_1 lMid) (s.tKey_2 lMid)) := by
  obtain ⟨π, r, hπ, hmr, hrn, hloop, hleft, hright, hshort⟩ :=
    partLoop_spec (ranked (s.tKey_2 lMid) s) hm hn
  have hcopies := partition_copyStays_iff (ranked (s.tKey_2 lMid) s) lMid (by omega : m ≤ n)
  have hfirst := partition_first_fixed (ranked (s.tKey_2 lMid) s) lMid (by omega : m < n)
  rw [← pairStays_iff] at hcopies
  have hrun : rankedPart (s.tKey_2 lMid) (partition_2K s m n lMid) = _ :=
    (partition_2K_eq s m n lMid).trans hloop
  rw [← partition_2K_eq] at hcopies hfirst
  unfold pastMiddle_2K compareAt
  generalize partition_2K s m n lMid = p at hrun hcopies hfirst ⊢
  obtain ⟨items, b, e⟩ := p
  obtain rfl : b = r := congrArg PartState.lBegin hrun
  obtain rfl : e = b := congrArg PartState.lEnd hrun
  -- the pairs are moved like the ranks
  have hpair : items.pair = s.pair ∘ π := by
    have h1 : items.tKey_1 = s.tKey_1 ∘ π := congrArg (fun p => p.items.tKey_2) hrun
    have h2 : items.tKey_2 = s.tKey_2 ∘ π := congrArg (fun p => p.items.tKey_3) hrun
    funext i
    exact Prod.ext (congrFun h1 i) (congrFun h2 i)
  have hrank : ∀ i, ((ranked (s.tKey_2 lMid) s).permute π).tKey_1 i =
      rankIn (s.tKey_2 lMid) (items.tKey_1 i) (items.tKey_2 i) := fun i =>
    congrFun (congrArg (fun p => p.items.tKey_1) hrun.symm) i
  have hmid : (ranked (s.tKey_2 lMid) s).tKey_1 lMid =
      rankIn (s.tKey_2 lMid) (s.tKey_1 lMid) (s.tKey_2 lMid) := rfl
  simp only [hrank, hmid] at hleft hright hshort hcopies hfirst
  dsimp only [rankedPart] at hcopies hfirst ⊢
  have hbelow : ∀ i, m ≤ i → i < e → items.tKey_1 i ≤ s.tKey_1 lMid := fun i hi hi' =>
    not_lt.mp (mid_lt_rankIn.not.mp (not_lt.mpr (hleft i hi hi')))
  have habove : ∀ i, e < i → i ≤ n → s.tKey_1 lMid < items.tKey_1 i ∨ items.pair i = s.pair lMid :=
    fun i hi hi' => mid_le_rankIn.mp (hright i hi hi')
  have hcopy : ∀ i, (ranked (s.tKey_2 lMid) items).tKey_1 i =
      rankIn (s.tKey_2 lMid) (s.tKey_1 lMid) (s.tKey_2 lMid) ↔ items.pair i = s.pair lMid :=
    fun i => rankIn_eq_mid
  simp only [hcopy] at hcopies
  have hfixed : s.tKey_1 m ≤ s.tKey_1 lMid → s.pair m ≠ s.pair lMid →
      ∃ π, Moves (m + 1) n π ∧ items.pair = s.pair ∘ π := by
    intro hle hne
    obtain ⟨ρ, hρ, hitems⟩ := hfirst (rankIn_lt_mid.mpr (hle.lt_or_eq.imp_right fun heq =>
      ⟨heq, fun heq' => hne (Prod.ext heq heq')⟩))
    refine ⟨ρ, hρ, funext fun i => Prod.ext ?_ ?_⟩
    · exact congrFun (congrArg Parallel.tKey_2 hitems) i
    · exact congrFun (congrArg Parallel.tKey_3 hitems) i
  by_cases hneg : Compare_2K (items.tKey_1 e) (s.tKey_1 lMid) (items.tKey_2 e) (s.tKey_2 lMid) < 0
  · -- the left part ends at `e` as well
    rw [if_pos hneg]
    have hrlt := compare_2K_neg.mp hneg
    have hlast : items.pair e ≠ s.pair lMid := fun heq => hrlt.ne ((hcopy e).mpr heq)
    refine ⟨⟨π, hπ, hpair⟩, hmr, hrn, Or.inr ⟨rfl, hshort.resolve_right (not_le.mpr hrlt)⟩, ?_, ?_, ?_,
      hfixed⟩
    · intro i hi hi'
      by_cases hie : i = e
      · rw [hie]
        exact (rankIn_lt_mid.mp hrlt).elim le_of_lt fun h => h.1.le
      · exact hbelow i hi (by omega)
    · exact fun i hi hi' => habove i (by omega) hi'
    · -- the pair at `e` is no copy
      rw [← hcopies]
      constructor
      · intro h
        obtain ⟨i, hi, hi', heq⟩ := h
        exact ⟨i, by omega, hi', heq⟩
      · intro h
        obtain ⟨i, hi, hi', heq⟩ := h
        have hie : i ≠ e := fun hie => hlast (hie ▸ heq)
        exact ⟨i, by omega, hi', heq⟩
  · -- the right part begins where the left one ends
    rw [if_neg hneg]
    have hrge := not_lt.mp (compare_2K_neg.not.mp hneg)
    refine ⟨⟨π, hπ, hpair⟩, hmr, hrn, Or.inl rfl, hbelow, ?_, hcopies, hfixed⟩
    intro i hi hi'
    by_cases hie : i = e
    · rw [hie]
      exact mid_le_rankIn.mp hrge
    · exact habove i (by omega) hi'

end Parts

/-! ## §5. The sort is a recursion over ranges. -/

section Recursion

variable {m n : ℤ}

theorem sortStep_2K_small (h : m ≥ n) (s : Parallel K P Unit) : sortStep_2K (m, n) s = (s, []) := if_pos h

theorem sortStep_2K_two (s : Parallel K P Unit) (m : ℤ) : sortStep_2K (m, m + 1) s =
    (if Compare_2K (s.tKey_1 m) (s.tKey_1 (m + 1)) (s.tKey_2 m) (s.tKey_2 (m + 1)) > 0 then
      s.swap m (m + 1) else s, []) := by
  unfold sortStep_2K
  rw [if_neg (by dsimp only; omega), if_pos rfl]

theorem sortStep_2K_more (hle : ¬ m ≥ n) (htwo : m + 1 ≠ n) (s : Parallel K P Unit) :
    ∃ p l, Split s m n ((m + n) / 2) p l ∧ sortStep_2K (m, n) s = (p.items, partsOf m n l p.lEnd) ∧
      p = partition_2K s m n ((m + n) / 2) ∧
      l = pastMiddle_2K p (s.tKey_1 ((m + n) / 2)) (s.tKey_2 ((m + n) / 2)) := by
  refine ⟨_, _, partition_2K_split s (by omega) (by omega), ?_, rfl, rfl⟩
  unfold sortStep_2K
  rw [if_neg hle, if_neg htwo]

theorem Q_Recursion_2K_more (hle : ¬ m ≥ n) (htwo : m + 1 ≠ n)
    (hmid : wrap32 (m + n) / 2 = (m + n) / 2) (hpos : ¬ (m + n) / 2 < 0) (fuel : ℕ)
    (s : Parallel K P Unit) : Q_Recursion_2K (fuel + 1) m n s = (let p := partition_2K s m n ((m + n) / 2)
      let l := pastMiddle_2K p (s.tKey_1 ((m + n) / 2)) (s.tKey_2 ((m + n) / 2))
      (if l - 1 > m then Q_Recursion_2K fuel m (l - 1) p.items else some p.items).bind fun s =>
        if p.lEnd < n then Q_Recursion_2K fuel p.lEnd n s else some s) := by
  conv_lhs => unfold Q_Recursion_2K
  rw [if_neg hle, if_neg htwo]
  rw [hmid, if_neg hpos]

theorem callsParts_2K : CallsParts (Q_Recursion_2K (K := K) (P := P)) sortStep_2K where
  no_fuel _ _ _ := rfl
  short fuel m n s hshort := by
    by_cases hle : m ≥ n
    · rw [sortStep_2K_small hle, Q_Recursion_2K, if_pos hle]
      exact ⟨s, rfl, rfl⟩
    · obtain rfl : n = m + 1 := by omega
      rw [sortStep_2K_two, Q_Recursion_2K, if_neg hle, if_pos rfl, ← apply_ite some]
      exact ⟨_, rfl, rfl⟩
  parts fuel m n s hm hmore hmid := by
    have hle : ¬ m ≥ n := by omega
    have htwo : m + 1 ≠ n := by omega
    obtain ⟨p, l, hp, hstep, rfl, rfl⟩ := sortStep_2K_more hle htwo s
    have hlower := hp.lower
    have hupper := hp.upper
    have hl := hp.parts
    exact ⟨_, _, _, hstep, hlower, by omega, Q_Recursion_2K_more hle htwo hmid (by omega) fuel s⟩
  wraps fuel m n s hmore hneg := by
    rw [Q_Recursion_2K, if_neg (by omega), if_neg (by omega)]
    exact if_pos hneg

/-- **The recursive sort** calls itself for the parts, behind the guard. -/
theorem Q_Recursion_2K_eq (fuel : ℕ) {m n : ℤ} (s : Parallel K P Unit) (hm : 0 ≤ m)
    (hn : n < 2 ^ 31) : Q_Recursion_2K fuel m n s = recur work_2K fuel (m, n) s :=
  callsParts_2K.eq fuel s hm hn

/-- The parts are shorter than the range, and within it. -/
theorem work_2K_sub (lBegin lEnd : ℤ) (R : ℤ × ℤ) (s : Parallel K P Unit)
    (r : Parallel K P Unit × List (ℤ × ℤ)) (hR : lBegin ≤ R.1 ∧ R.2 ≤ lEnd) (hwork : work_2K R s = some r) :
    ∀ S ∈ r.2, (lBegin ≤ S.1 ∧ S.2 ≤ lEnd) ∧ (S.2 - S.1).toNat < (R.2 - R.1).toNat := by
  obtain ⟨m, n⟩ := R
  obtain ⟨-, rfl⟩ := guarded_eq_some.mp hwork
  by_cases hle : m ≥ n
  · rw [sortStep_2K_small hle]
    exact fun S hS => absurd hS List.not_mem_nil
  by_cases htwo : m + 1 = n
  · subst htwo
    rw [sortStep_2K_two]
    exact fun S hS => absurd hS List.not_mem_nil
  obtain ⟨p, l, hp, hstep, -, -⟩ := sortStep_2K_more hle htwo s
  have hlower := hp.lower
  have hupper := hp.upper
  have hl := hp.parts
  rw [hstep]
  intro S hS
  obtain hS | hS := List.mem_append.mp hS
  · split at hS
    · obtain rfl := List.mem_singleton.mp hS
      omega
    · exact absurd hS List.not_mem_nil
  split at hS
  · obtain rfl := List.mem_singleton.mp hS
    omega
  · exact absurd hS List.not_mem_nil

end Recursion

/-! ## §6. What a call does. -/

section Calls

variable {d : Direction} {s s' s₁ s₂ s₃ : Parallel K P Unit} {m n l r : ℤ}

theorem PairLe.refl (d : Direction) (x : K × P) : PairLe d x x := by
  refine Or.inr ⟨rfl, ?_⟩
  cases d with
  | ascending | descending => exact le_refl x.2

theorem PairLe.second {x y : K × P} (h : PairLe d x y) (heq : x.1 = y.1) : d.le x.2 y.2 :=
  h.elim (fun hlt => absurd heq hlt.ne) And.right

/-- **The contract of a call**: it permutes the pairs of its range, keeps a first
    pair that is below all others and is none of them, and sorts if and only if no
    call that it makes leaves two pairs in the wrong order. -/
structure Contract2K (d : Direction) (R : ℤ × ℤ) (s s' : Parallel K P Unit) : Prop where
  perm : Permuted s.pair s'.pair R.1 R.2
  first : (∀ j, R.1 < j → j ≤ R.2 → s.tKey_1 R.1 ≤ s.tKey_1 j ∧ s.pair R.1 ≠ s.pair j) →
    s'.pair R.1 = s.pair R.1
  sorts : SortedBy2K d s' R.1 R.2 ↔ ¬ SomeCall work_2K (fun R s => ¬ OrdersEqual d R s) R s

theorem not_someCall_of_le (d : Direction) {R : ℤ × ℤ} (h : R.2 ≤ R.1) (s : Parallel K P Unit) :
    ¬ SomeCall work_2K (fun R s => ¬ OrdersEqual d R s) R s := by
  have hwork : work_2K R s = some (s, []) := by
    have hfit : SumFits R := fun hlt => absurd hlt (by omega)
    rw [work_2K, guarded, if_pos hfit, sortStep_2K, if_pos h]
  rw [someCall_nil hwork, not_not]
  exact ⟨fun htwo => by omega, fun hmore => by omega⟩

theorem Contract2K.of_le (d : Direction) {R : ℤ × ℤ} (h : R.2 ≤ R.1) (s : Parallel K P Unit) :
    Contract2K d R s s := by
  refine ⟨Permuted.refl _ _ _, fun _ => rfl, iff_of_true (fun i j hi hij hj => ?_)
    (not_someCall_of_le d h s)⟩
  rw [show i = j by omega]
  exact PairLe.refl d _

/-- Two pairs. -/
theorem contract2K_two (d : Direction) (s : Parallel K P Unit) (m : ℤ) :
    Contract2K d (m, m + 1) s (sortStep_2K (m, m + 1) s).1 := by
  have hfit : SumFits (m, m + 1) := fun hlt => absurd hlt (lt_irrefl _)
  have hwork : work_2K (m, m + 1) s = some ((sortStep_2K (m, m + 1) s).1, []) := by
    rw [work_2K, guarded, if_pos hfit, sortStep_2K_two]
  have hpair : ∀ w : Parallel K P Unit, SortedBy2K d w m (m + 1) ↔
      PairLe d (w.pair m) (w.pair (m + 1)) := by
    intro w
    refine ⟨fun h => h m (m + 1) le_rfl (by omega) le_rfl, fun h i j hi hij hj => ?_⟩
    by_cases heq : i = j
    · rw [heq]
      exact PairLe.refl d _
    · rw [show i = m by omega, show j = m + 1 by omega]
      exact h
  have hnot : ¬ ((m, m + 1) : ℤ × ℤ).1 + 1 < ((m, m + 1) : ℤ × ℤ).2 := lt_irrefl _
  have horders : OrdersEqual d (m, m + 1) s ↔
      (s.tKey_1 m = s.tKey_1 (m + 1) → d.le (s.tKey_2 m) (s.tKey_2 (m + 1))) :=
    ⟨fun h => h.1 rfl, fun h => ⟨fun _ => h, fun hmore => absurd hmore hnot⟩⟩
  have hcalls := someCall_nil (Q := fun R s => ¬ OrdersEqual d R s) hwork
  rw [sortStep_2K_two]
  by_cases hpos : Compare_2K (s.tKey_1 m) (s.tKey_1 (m + 1)) (s.tKey_2 m) (s.tKey_2 (m + 1)) > 0
  · -- the first keys are in the wrong order
    have hgt := compare_2K_pos.mp hpos
    rw [if_pos hpos]
    have hswap : (s.swap m (m + 1)).pair = s.pair ∘ Equiv.swap m (m + 1) := by
      rw [Parallel.swap_eq_permute]
      rfl
    refine ⟨?_, fun h => ?_, ?_⟩
    · dsimp only
      rw [hswap]
      exact Permuted.swap _ (by omega) (by omega)
    · exact absurd (h (m + 1) (by dsimp only; omega) le_rfl).1 (not_le.mpr hgt)
    · rw [hcalls, not_not, horders, hpair, hswap]
      refine iff_of_true (Or.inl ?_) fun heq => absurd heq hgt.ne'
      show (s.pair (Equiv.swap m (m + 1) m)).1 < (s.pair (Equiv.swap m (m + 1) (m + 1))).1
      rw [Equiv.swap_apply_left, Equiv.swap_apply_right]
      exact hgt
  · -- the comparison is never positive for equal first keys
    have hle := not_lt.mp (compare_2K_pos.not.mp hpos)
    rw [if_neg hpos]
    refine ⟨Permuted.refl _ _ _, fun _ => rfl, ?_⟩
    rw [hcalls, not_not, horders, hpair]
    constructor
    · exact fun h heq => h.second heq
    · exact fun h => hle.lt_or_eq.imp_right fun heq => ⟨heq, h heq⟩

/-! ## §7. From the parts to the range. -/

section Step

variable {lMid : ℤ} {p : PartState K P Unit}

section

variable (hp : Split s m n lMid p l)
include hp

omit [LinearOrder P] in
theorem Split.perm_parts (hl : Permuted p.items.pair s₂.pair m (l - 1)) (hr : Permuted s₂.pair s₃.pair p.lEnd n) :
    Permuted s.pair s₃.pair m n := by
  have hlower := hp.lower
  have hparts := hp.parts
  have hupper := hp.upper
  exact (hp.perm.trans (hl.mono le_rfl (by omega))).trans (hr.mono (by omega) le_rfl)

/-- A first pair that is below all others stays. -/
theorem Split.first_parts (hm : m < lMid) (hn : lMid ≤ n) (hl : Contract2K d (m, l - 1) p.items s₂)
    (hr : Permuted s₂.pair s₃.pair p.lEnd n)
    (hfirst : ∀ j, m < j → j ≤ n → s.tKey_1 m ≤ s.tKey_1 j ∧ s.pair m ≠ s.pair j) : s₃.pair m = s.pair m := by
  have hlower := hp.lower
  have hparts := hp.parts
  have hupper := hp.upper
  obtain ⟨hle, hne⟩ := hfirst lMid hm hn
  obtain ⟨π, hπ, hitems⟩ := hp.first hle hne
  have hfixed : p.items.pair m = s.pair m := by
    rw [hitems]
    exact congrArg s.pair (hπ m (by omega))
  have hleft : s₂.pair m = p.items.pair m := by
    refine hl.first fun j hj hj' => ?_
    have hin := hπ.inside (i := j) (by omega)
    obtain ⟨hle', hne'⟩ := hfirst (π j) (by omega) hin.2
    have hj₁ : p.items.pair j = s.pair (π j) := congrFun hitems j
    have hkey : p.items.tKey_1 j = s.tKey_1 (π j) := congrArg Prod.fst hj₁
    have hkey' : p.items.tKey_1 m = s.tKey_1 m := congrArg Prod.fst hfixed
    rw [hfixed, hj₁, hkey, hkey']
    exact ⟨hle', hne'⟩
  rw [hr.outside (by omega), hleft, hfixed]

/-- **The parts are in order** with each other, when no copy of the middle pair stays
    on the wrong side. -/
theorem Split.cross (hl : Permuted p.items.pair s₂.pair m (l - 1))
    (hequal : PairStays s m n lMid → ∀ i, m ≤ i → i ≤ n → s.tKey_1 i = s.tKey_1 lMid → d.le (s.tKey_2 i) (s.tKey_2 lMid)) :
    ∀ i j, m ≤ i → i < l → l ≤ j → j ≤ n → PairLe d (s₂.pair i) (s₂.pair j) := by
  intro i j hi hil hlj hj
  rw [hl.outside (i := j) (by omega)]
  obtain ⟨i₁, hi₁, heq⟩ := hl.inside (i := i) (by omega)
  rw [heq]
  have hle : (p.items.pair i₁).1 ≤ s.tKey_1 lMid := hp.left i₁ hi₁.1 (by omega)
  obtain hgt | hmid := hp.right j hlj hj
  · exact Or.inl (lt_of_le_of_lt hle hgt)
  -- the pair on the right is a copy of the middle one
  rw [hmid]
  refine hle.lt_or_eq.imp_right fun heq' => ⟨heq', ?_⟩
  obtain ⟨i₀, hi₀, hfrom⟩ := hp.perm.inside (i := i₁) (by omega)
  rw [hfrom] at heq' ⊢
  exact hequal (hp.copies.mp ⟨j, hlj, hj, hmid⟩) i₀ hi₀.1 hi₀.2 heq'

/-- **The range is sorted** when its parts are, and they are in order. -/
theorem Split.sorted (hl : Permuted p.items.pair s₂.pair m (l - 1)) (hr : Permuted s₂.pair s₃.pair p.lEnd n)
    (hequal : PairStays s m n lMid → ∀ i, m ≤ i → i ≤ n → s.tKey_1 i = s.tKey_1 lMid → d.le (s.tKey_2 i) (s.tKey_2 lMid))
    (hleft : SortedBy2K d s₂ m (l - 1)) (hright : SortedBy2K d s₃ p.lEnd n) : SortedBy2K d s₃ m n := by
  intro i j hi hij hj
  have hparts := hp.parts
  by_cases hri : p.lEnd ≤ i
  · exact hright i j hri hij hj
  rw [hr.outside (i := i) (by omega)]
  by_cases hrj : p.lEnd ≤ j
  · -- where it was before the right call: in the cell of both parts, or behind
    obtain ⟨j₁, hj₁, heq⟩ := hr.inside ⟨hrj, hj⟩
    rw [heq]
    by_cases hlast : j₁ < l
    · exact hleft i j₁ hi (by omega) (by omega)
    · exact hp.cross hl hequal i j₁ hi (by omega) (by omega) hj₁.2
  · rw [hr.outside (i := j) (by omega)]
    exact hleft i j hi hij (by omega)

/-- **Conversely** its parts are sorted. -/
theorem Split.sorted_parts (hr : Permuted s₂.pair s₃.pair p.lEnd n) (hs : SortedBy2K d s₃ m n) :
    SortedBy2K d s₂ m (l - 1) ∧ SortedBy2K d s₃ p.lEnd n := by
  have hlower := hp.lower
  have hparts := hp.parts
  have hupper := hp.upper
  refine ⟨fun i j hi hij hj => ?_, fun i j hi hij hj => hs i j (by omega) hij hj⟩
  by_cases heq : i = j
  · rw [heq]
    exact PairLe.refl d _
  rw [← hr.outside (i := i) (by omega)]
  by_cases hrj : j < p.lEnd
  · rw [← hr.outside (i := j) (by omega)]
    exact hs i j hi hij (by omega)
  -- the last element of the left part has been sorted into the right one
  obtain ⟨j₁, hj₁, hfrom⟩ := hr.find (i := j) (by omega)
  rw [← hfrom]
  exact hs i j₁ hi (by omega) hj₁.2

/-- And no pair is on the wrong side of a copy of the middle one. -/
theorem Split.equal_of_sorted (hl : Permuted p.items.pair s₂.pair m (l - 1)) (hr : Contract2K d (p.lEnd, n) s₂ s₃)
    (hs : SortedBy2K d s₃ m n) (hstays : PairStays s m n lMid) :
    ∀ i, m ≤ i → i ≤ n → s.tKey_1 i = s.tKey_1 lMid → d.le (s.tKey_2 i) (s.tKey_2 lMid) := by
  intro i hi hi' hkey
  have hparts := hp.parts
  by_cases hmid : s.pair i = s.pair lMid
  · have hsecond : s.tKey_2 i = s.tKey_2 lMid := congrArg Prod.snd hmid
    rw [hsecond]
    exact (PairLe.refl d (s.pair lMid)).second rfl
  -- the copy is behind the left part, the pair is in it
  obtain ⟨c, hc, hc', hcopy⟩ := hp.copies.mpr hstays
  obtain ⟨i₁, hi₁, hfrom₁⟩ := hp.perm.find ⟨hi, hi'⟩
  have hleft : i₁ < l := by
    by_contra hbad
    obtain hgt | heq := hp.right i₁ (by omega) hi₁.2
    · have hkey' : p.items.tKey_1 i₁ = s.tKey_1 i := congrArg Prod.fst hfrom₁
      exact absurd (hkey'.trans hkey) hgt.ne'
    · exact hmid (hfrom₁.symm.trans heq)
  obtain ⟨i₂, hi₂, hfrom₂⟩ := hl.find (i := i₁) (by omega)
  have hpair₂ : s₂.pair i₂ = s.pair i := hfrom₂.trans hfrom₁
  have hcopy₂ : s₂.pair c = s.pair lMid := (hl.outside (by omega)).trans hcopy
  have hperm : Permuted s₂.pair s₃.pair p.lEnd n := hr.perm
  obtain ⟨c₃, hc₃, hfromc⟩ := hperm.find (i := c) (by omega)
  have hcopy₃ : s₃.pair c₃ = s.pair lMid := hfromc.trans hcopy₂
  -- where the pair is in the end: in front of the copy
  have hend : ∃ i₃, m ≤ i₃ ∧ i₃ ≤ c₃ ∧ s₃.pair i₃ = s.pair i := by
    by_cases hbelow : i₂ < p.lEnd
    · exact ⟨i₂, hi₂.1, by omega, (hperm.outside (by omega)).trans hpair₂⟩
    -- it is the first one of the right part, and stays there
    obtain rfl : i₂ = p.lEnd := by omega
    refine ⟨p.lEnd, by omega, hc₃.1, (hr.first fun j hj hj' => ?_).trans hpair₂⟩
    have hkey₂ : s₂.tKey_1 p.lEnd = s.tKey_1 lMid := (congrArg Prod.fst hpair₂).trans hkey
    have hsame : s₂.pair j = p.items.pair j := hl.outside (by omega)
    have hkeyj : s₂.tKey_1 j = p.items.tKey_1 j := congrArg Prod.fst hsame
    rw [hpair₂, hsame, hkey₂, hkeyj]
    obtain hgt | heq := hp.right j (by omega) hj'
    · refine ⟨hgt.le, fun hbad => ?_⟩
      have hkey' : s.tKey_1 i = p.items.tKey_1 j := congrArg Prod.fst hbad
      exact absurd (hkey'.symm.trans hkey) hgt.ne'
    · have hkey' : p.items.tKey_1 j = s.tKey_1 lMid := congrArg Prod.fst heq
      exact ⟨hkey'.ge, fun hbad => hmid (hbad.trans heq)⟩
  obtain ⟨i₃, hi₃, hle, hpair₃⟩ := hend
  have hord := hs i₃ c₃ hi₃ hle hc₃.2
  rw [hpair₃, hcopy₃] at hord
  exact hord.second hkey

end

end Step

theorem contract2K_part {fuel : ℕ} (h : ∀ s', recur work_2K fuel (m, n) s = some s' →
      Contract2K d (m, n) s s') (hrun : (if m < n then recur work_2K fuel (m, n) s else some s) = some s') :
    Contract2K d (m, n) s s' := by
  by_cases hlt : m < n
  · rw [if_pos hlt] at hrun
    exact h s' hrun
  · rw [if_neg hlt] at hrun
    cases hrun
    exact Contract2K.of_le d (not_lt.mp hlt) s

/-- **EVERY CALL keeps its contract.** -/
theorem contract2K (d : Direction) (fuel : ℕ) : ∀ (R : ℤ × ℤ) (s s' : Parallel K P Unit),
    recur work_2K fuel R s = some s' → Contract2K d R s s' := by
  induction fuel with
  | zero =>
    intro R s s' h
    cases h
  | succ fuel ih =>
    intro R s s' h
    obtain ⟨m, n⟩ := R
    obtain ⟨x, hwork, hsub⟩ := Option.bind_eq_some_iff.mp h
    obtain ⟨-, rfl⟩ := guarded_eq_some.mp hwork
    by_cases hle : m ≥ n
    · rw [sortStep_2K_small hle] at hsub
      cases hsub
      exact Contract2K.of_le d hle s
    by_cases htwo : m + 1 = n
    · subst htwo
      have hend : s' = (sortStep_2K (m, m + 1) s).1 := by
        rw [sortStep_2K_two] at hsub ⊢
        exact (Option.some.inj hsub).symm
      rw [hend]
      exact contract2K_two d s m
    obtain ⟨p, l, hp, hstep, -, -⟩ := sortStep_2K_more hle htwo s
    rw [hstep] at hwork hsub
    rw [partsOf, inTurn_append] at hsub
    obtain ⟨s₂, hleft, hright⟩ := Option.bind_eq_some_iff.mp hsub
    have hcalls := someCall_iff (Q := fun R s => ¬ OrdersEqual d R s) hwork
    have hnone : ∀ {a b : ℤ} (w : Parallel K P Unit), ¬ a < b →
        ¬ SomeCall work_2K (fun R s => ¬ OrdersEqual d R s) (a, b) w := fun w hc =>
      not_someCall_of_le d (not_lt.mp hc) w
    rw [partsOf, someCallIn_append _ hleft, someCallIn_ite (hnone p.items),
      someCallIn_ite (hnone s₂)] at hcalls
    rw [inTurn_ite] at hleft hright
    have hl := contract2K_part (fun s' => ih (m, l - 1) p.items s') hleft
    have hr := contract2K_part (fun s' => ih (p.lEnd, n) s₂ s') hright
    -- only the middle pair of a range of three or more matters
    have hmore : ((m, n) : ℤ × ℤ).1 + 1 < ((m, n) : ℤ × ℤ).2 := by
      omega
    have horders : OrdersEqual d (m, n) s ↔ (PairStays s m n ((m + n) / 2) → ∀ i, m ≤ i → i ≤ n →
        s.tKey_1 i = s.tKey_1 ((m + n) / 2) → d.le (s.tKey_2 i) (s.tKey_2 ((m + n) / 2))) :=
      ⟨fun h => h.2 hmore, fun h => ⟨fun heq => absurd heq hmore.ne, fun _ => h⟩⟩
    refine ⟨hp.perm_parts hl.perm hr.perm,
      hp.first_parts (by omega) (by omega) hl hr.perm, ?_⟩
    rw [hcalls, not_or, not_or, not_not, horders, ← hl.sorts, ← hr.sorts]
    constructor
    · intro hs
      exact ⟨fun hstays => hp.equal_of_sorted hl.perm hr hs hstays, hp.sorted_parts hr.perm hs⟩
    · intro hs
      exact hp.sorted hl.perm hr.perm hs.1 hs.2.1 hs.2.2

end Calls

/-! ## §8. The sort. -/

/-- **THE SORT BY TWO KEYS**, for every array, every range and each direction of the
    second key: it returns and sorts if and only if every call does its part. -/
theorem sortsBy2K_iff (d : Direction) (s : Parallel K P Unit) {lBegin lEnd : ℤ} (hB : 0 ≤ lBegin)
    (hE : lEnd < 2 ^ 31) : Sorts2K d s lBegin lEnd ↔
      ∀ R w k, ComesTo work_2K (lBegin, lEnd) s R w k → CallSorts d R w := by
  have hnone : ∀ (R : ℤ × ℤ) (w : Parallel K P Unit), work_2K R w ≠ none ↔ SumFits R := by
    intro R w
    unfold work_2K guarded
    by_cases hfit : SumFits R
    · rw [if_pos hfit]
      exact iff_of_true nofun hfit
    · rw [if_neg hfit]
      exact iff_of_false (fun h => h rfl) hfit
  have hmeets := recur_meets_iff (G := fun s' => Permuted s.pair s'.pair lBegin lEnd ∧
      SortedBy2K d s' lBegin lEnd) (fun R : ℤ × ℤ => (R.2 - R.1).toNat)
    (work_2K_sub (K := K) (P := P) lBegin lEnd) (t := (lBegin, lEnd)) ⟨le_rfl, le_rfl⟩ s
    (fun fuel s' hrun =>
      have hcontract := contract2K d fuel (lBegin, lEnd) s s' hrun
      (and_iff_right hcontract.perm).trans hcontract.sorts)
  unfold Sorts2K
  simp only [Q_Recursion_2K_eq _ s hB hE]
  rw [hmeets]
  exact forall₄_congr fun R w k hcall => and_congr (hnone R w) not_not

theorem calls_two {s w : Parallel K P Unit} {m : ℤ} {R : ℤ × ℤ} {k : ℕ}
    (h : ComesTo work_2K (m, m + 1) s R w k) : R = (m, m + 1) ∧ w = s := by
  cases h with
  | here => exact ⟨rfl, rfl⟩
  | inside hwork hsub =>
    obtain ⟨-, rfl⟩ := guarded_eq_some.mp hwork
    rw [sortStep_2K_two] at hsub
    exact absurd hsub.symm (List.append_ne_nil_of_right_ne_nil _ (List.cons_ne_nil _ _))

/-- Two pairs with equal first keys, the second ones in ascending order. -/
theorem sortsBy2K_iff_two :
    Sorts2K .ascending (⟨fun _ => 0, id, fun _ => ()⟩ : Parallel ℤ ℤ Unit) 0 1 := by
  refine (sortsBy2K_iff .ascending _ le_rfl (by decide)).mpr fun R w k hcall => ?_
  obtain ⟨rfl, rfl⟩ := calls_two (m := 0) hcall
  exact ⟨fun hlt => absurd hlt (by decide), fun _ _ => (by decide : (0 : ℤ) ≤ 1),
    fun hlt => absurd hlt (by decide)⟩

/-- **Two pairs with equal first keys** are left as they are. -/
theorem second_of_sorts2K {d : Direction} {s : Parallel K P Unit} {m : ℤ}
    (h : Sorts2K d s m (m + 1)) (heq : s.tKey_1 m = s.tKey_1 (m + 1)) :
    d.le (s.tKey_2 m) (s.tKey_2 (m + 1)) := by
  obtain ⟨fuel, s', hrun, -, hs⟩ := h
  have hsame : s' = s := by
    cases fuel with
    | zero => cases hrun
    | succ fuel =>
      rw [Q_Recursion_2K, if_neg (by omega), if_pos rfl,
        if_neg (compare_2K_pos.not.mpr heq.le.not_gt)] at hrun
      exact (Option.some.inj hrun).symm
  rw [hsame] at hs
  exact (hs m (m + 1) le_rfl (by omega) le_rfl).second heq

/-- One key, with the second keys 1, 2 and 2, 1: there is no direction in which both
    are sorted. -/
theorem equal_first_keys_unsorted : ¬ ∃ d : Direction,
    Sorts2K d (⟨fun _ => 0, fun i => i + 1, fun _ => ()⟩ : Parallel ℤ ℤ Unit) 0 1 ∧
      Sorts2K d (⟨fun _ => 0, fun i => 2 - i, fun _ => ()⟩ : Parallel ℤ ℤ Unit) 0 1 := by
  intro h
  obtain ⟨d, hup, hdown⟩ := h
  cases d with
  | ascending =>
    have hle : (2 : ℤ) ≤ 1 := second_of_sorts2K (m := 0) hdown rfl
    omega
  | descending =>
    have hle : (2 : ℤ) ≤ 1 := second_of_sorts2K (m := 0) hup rfl
    omega

end KalavaPir.Common
