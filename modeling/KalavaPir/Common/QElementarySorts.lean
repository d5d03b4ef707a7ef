/-
  KalavaPir.Common.QElementarySorts — bubble sort, shell sort and selection sort of
  `common/qalgorithm.h`, and what all five elementary sorts have in common.

  Counters and positions are `int32_t`: an overflow is undefined (`none`).  There
  is none in these three for any range that ends below 2³¹ − 1, as it has to for
  its size to be an `int32_t`.
-/
import KalavaPir.Common.QHeapSort
import KalavaPir.Common.QInsertSort

namespace KalavaPir.Common

open KalavaPir.Framework Function

variable {A K : Type} [LinearOrder K]

/-! ## §1. `Q_Bubble_Sort_Improved` (qalgorithm.h:132). -/

section Source

variable (key : A → K)

/-- `for(int32_t j=lEnd; j>=i; --j) { … }`, where the number is `j-i+1`; and whether
    it has set `exchange`. -/
def bubbleSweep : ℕ → ℤ → (ℤ → A) → Bool → (ℤ → A) × Bool
  | 0, _, v, exchange => (v, exchange)
  | n + 1, j, v, exchange =>
    if key (v (j - 1)) > key (v j) then bubbleSweep n (j - 1) (swapAt v (j - 1) j) true
    else bubbleSweep n (j - 1) v exchange

/-- A round of `for(int32_t i=lBegin+1; i<=lEnd; ++i) { … }`. -/
def bubbleRound (lEnd : ℤ) (p : ℤ × (ℤ → A)) : Option (LoopStep (ℤ × (ℤ → A)) (ℤ → A)) :=
  if p.1 ≤ lEnd then
    let q := bubbleSweep key (lEnd - p.1 + 1).toNat lEnd p.2 false
    if q.2 = false then some (.done q.1) else (int32 (p.1 + 1)).map fun i => .again (i, q.1)
  else some (.done p.2)

/-- It stops after a round without a swap. -/
def Q_Bubble_Sort_Improved (v : ℤ → A) (lBegin lEnd : ℤ) : Option (ℤ → A) :=
  (int32 (lBegin + 1)).bind fun i => loop (bubbleRound key lEnd) ((lEnd - lBegin).toNat + 1) (i, v)

/-! ## §2. `Q_Shell_Sort` (qalgorithm.h:187). -/

/-- A round of `do { … } while(j>=lBegin&&temp<v[j]);`, and `v[j+gap]=temp;` at its
    end. -/
def shellShift (lBegin gap : ℤ) (temp : A) (p : ℤ × (ℤ → A)) :
    Option (LoopStep (ℤ × (ℤ → A)) (ℤ → A)) :=
  let v := update p.2 (p.1 + gap) (p.2 p.1)
  let j := p.1 - gap
  if j ≥ lBegin ∧ key temp < key (v j) then some (.again (j, v))
  else some (.done (update v (j + gap) temp))

/-- A round of `for(i=lBegin+gap; i<=lEnd; ++i) { … }`. -/
def shellInsert (lBegin lEnd gap : ℤ) (p : ℤ × (ℤ → A)) :
    Option (LoopStep (ℤ × (ℤ → A)) (ℤ → A)) :=
  let i := p.1
  let v := p.2
  if i ≤ lEnd then
    (if key (v i) < key (v (i - gap)) then
        loop (shellShift key lBegin gap (v i)) ((i - lBegin).toNat + 1) (i - gap, v)
      else some v).bind fun v' => (int32 (i + 1)).map fun i' => .again (i', v')
  else some (.done v)

/-- A round of `do { … } while(gap>1);`. -/
def shellPass (lBegin lEnd : ℤ) (p : ℤ × (ℤ → A)) : Option (LoopStep (ℤ × (ℤ → A)) (ℤ → A)) :=
  let gap := p.1.tdiv 3 + 1
  (int32 (lBegin + gap)).bind fun i =>
    (loop (shellInsert key lBegin lEnd gap) ((lEnd - lBegin).toNat + 1) (i, p.2)).map fun v =>
      if gap > 1 then .again (gap, v) else .done v

/-- Insertion sorts with smaller and smaller gaps. -/
def Q_Shell_Sort (v : ℤ → A) (lBegin lEnd : ℤ) : Option (ℤ → A) :=
  (int32 (lEnd - lBegin + 1)).bind fun gap => loop (shellPass key lBegin lEnd) (gap.toNat + 1) (gap, v)

/-! ## §3. `Q_Slect_Sort` (qalgorithm.h:353). -/

/-- A round of `for(int32_t j=i+1; j<=lEnd; ++j) { if(v[j]<v[k]) k=j; }`. -/
def selectScan (v : ℤ → A) (lEnd : ℤ) (p : ℤ × ℤ) : Option (LoopStep (ℤ × ℤ) ℤ) :=
  if p.1 ≤ lEnd then
    (int32 (p.1 + 1)).map fun j => .again (j, if key (v p.1) < key (v p.2) then p.1 else p.2)
  else some (.done p.2)

/-- A round of `for(int32_t i=lBegin; i<lEnd; ++i) { … }`. -/
def selectRound (lEnd : ℤ) (p : ℤ × (ℤ → A)) : Option (LoopStep (ℤ × (ℤ → A)) (ℤ → A)) :=
  let i := p.1
  let v := p.2
  if i < lEnd then
    (loop (selectScan key v lEnd) ((lEnd - i).toNat + 1) (i + 1, i)).bind fun k =>
      (int32 (i + 1)).map fun i' => .again (i', if k ≠ i then swapAt v i k else v)
  else some (.done v)

/-- The least of the rest goes to its front. -/
def Q_Slect_Sort (v : ℤ → A) (lBegin lEnd : ℤ) : Option (ℤ → A) :=
  loop (selectRound key lEnd) ((lEnd - lBegin).toNat + 1) (lBegin, v)

end Source

/-- A range has been sorted by its keys. -/
def KeySorted (key : A → K) (v v' : ℤ → A) (m n : ℤ) : Prop :=
  Permuted v v' m n ∧ SortedOn (key ∘ v') m n

theorem StableSorted.keySorted {key : A → K} {v v' : ℤ → A} {m n : ℤ}
    (h : StableSorted key v v' m n) : KeySorted key v v' m n := ⟨h.1.permuted, h.2⟩

theorem int32_next {i lEnd : ℤ} (hi : 0 ≤ i) (hle : i ≤ lEnd) (hE : lEnd < INT32_MAX) :
    int32 (i + 1) = some (i + 1) := by
  unfold INT32_MAX at hE
  exact int32_of_range (by omega) (by omega)

section Sorting

variable {key : A → K} {v w : ℤ → A} {lBegin lEnd : ℤ}

/-! ## §4. The bubble sort. -/

/-- **A sweep** from `j` down takes the least element to the front. -/
theorem bubbleSweep_spec (key : A → K) (lo lEnd : ℤ) (n : ℕ) :
    ∀ (j : ℤ) (v : ℤ → A) (exchange : Bool), j - n = lo → j ≤ lEnd → (∀ k, j ≤ k → k ≤ lEnd → key (v j) ≤ key (v k)) →
    Stable key v (bubbleSweep key n j v exchange).1 lo lEnd ∧
      (∀ k, lo ≤ k → k ≤ lEnd → key ((bubbleSweep key n j v exchange).1 lo) ≤
        key ((bubbleSweep key n j v exchange).1 k)) ∧
      ((bubbleSweep key n j v exchange).2 = false → exchange = false ∧
        (bubbleSweep key n j v exchange).1 = v ∧
          ∀ k, lo < k → k ≤ j → key (v (k - 1)) ≤ key (v k)) := by
  induction n with
  | zero =>
    intro j v exchange hlo _ hleast
    obtain rfl : j = lo := by
      omega
    exact ⟨Stable.refl key v _ _, hleast, fun h => ⟨h, rfl, fun k hk hk' => by omega⟩⟩
  | succ n ih =>
    intro j v exchange hlo hj hleast
    rw [bubbleSweep]
    by_cases hgt : key (v (j - 1)) > key (v j)
    · -- the two change places, and `exchange` is set
      rw [if_pos hgt]
      have hswap : Stable key v (swapAt v (j - 1) j) lo lEnd := by
        have hne : key (v (j - 1)) ≠ key (v (j - 1 + 1)) := by
          rw [show j - 1 + 1 = j by omega]
          exact ne_of_gt hgt
        have h : Stable key v (v ∘ Equiv.swap (j - 1) (j - 1 + 1)) lo lEnd :=
          Stable.swap v (by omega) (by omega) hne
        rwa [show j - 1 + 1 = j by omega, ← swapAt_eq] at h
      obtain ⟨hstable, hfront, hflag⟩ := ih (j - 1) (swapAt v (j - 1) j) true (by omega) (by omega)
        fun k hk hk' => by
          rw [swapAt_left]
          by_cases hk1 : k = j - 1
          · rw [hk1, swapAt_left]
          by_cases hk2 : k = j
          · rw [hk2, swapAt_right]
            exact hgt.le
          · rw [swapAt_other v hk1 hk2]
            exact hleast k (by omega) hk'
      refine ⟨hswap.trans hstable, hfront, fun h => ?_⟩
      exact absurd (hflag h).1 (by decide)
    · -- the two are in order, and `v[j-1]` is the least one now
      rw [if_neg hgt]
      have hle := not_lt.mp hgt
      obtain ⟨hstable, hfront, hflag⟩ := ih (j - 1) v exchange (by omega) (by omega)
        fun k hk hk' => by
          by_cases hk1 : k = j - 1
          · rw [hk1]
          · exact hle.trans (hleast k (by omega) hk')
      refine ⟨hstable, hfront, fun h => ?_⟩
      obtain ⟨hno, hsame, horder⟩ := hflag h
      refine ⟨hno, hsame, fun k hk hk' => ?_⟩
      by_cases hkj : k = j
      · rw [hkj]
        exact hle
      · exact horder k hk (by omega)

/-- Before the round with `i`: the elements in front of `i-1` are in their places. -/
structure Bubbling (key : A → K) (v : ℤ → A) (lBegin lEnd : ℤ) (p : ℤ × (ℤ → A)) : Prop where
  stable : Stable key v p.2 lBegin lEnd
  placed : PlacedOutside (key ∘ p.2) lBegin lEnd (p.1 - 1) lEnd
  begin_lt : lBegin < p.1

/-- **A round** takes one more of them there, or finds that all are. -/
theorem bubbleRound_spec (hB : 0 ≤ lBegin) (hE : lEnd < INT32_MAX) {p : ℤ × (ℤ → A)}
    (h : Bubbling key v lBegin lEnd p) :
    (∃ p', bubbleRound key lEnd p = some (.again p') ∧ Bubbling key v lBegin lEnd p' ∧
      (lEnd + 1 - p'.1).toNat < (lEnd + 1 - p.1).toNat) ∨
    ∃ v', bubbleRound key lEnd p = some (.done v') ∧ StableSorted key v v' lBegin lEnd := by
  obtain ⟨i, w⟩ := p
  obtain ⟨hstable, hplaced, hi⟩ := h
  unfold bubbleRound
  by_cases hle : i ≤ lEnd
  · rw [if_pos hle, int32_next (by omega) hle hE]
    obtain ⟨hsweep, hfront, hflag⟩ := bubbleSweep_spec key (i - 1) lEnd (lEnd - i + 1).toNat lEnd w
      false (by omega) le_rfl fun k hk hk' => by rw [show k = lEnd by omega]
    generalize bubbleSweep key (lEnd - i + 1).toNat lEnd w false = q at hsweep hfront hflag
    by_cases hno : q.2 = false
    · -- no exchange: the rest is sorted as well
      rw [if_pos hno]
      obtain ⟨-, hsame, horder⟩ := hflag hno
      rw [hsame]
      exact Or.inr ⟨w, rfl, hstable, hplaced.sorted (SortedOn.of_neighbours horder)⟩
    rw [if_neg hno]
    refine Or.inl ⟨(i + 1, q.1), rfl, ⟨hstable.trans (hsweep.mono (by omega) le_rfl), ?_, ?_⟩, ?_⟩
    · -- the least element of the window has got to its front
      obtain ⟨π, hπ, heq, -⟩ := hsweep
      have hmoved := hplaced.moved hπ (by omega) le_rfl
      rw [Function.comp_assoc, ← heq] at hmoved
      have hnext := hmoved.first hfront
      rwa [show i - 1 + 1 = i + 1 - 1 by omega] at hnext
    · show lBegin < i + 1
      omega
    · show (lEnd + 1 - (i + 1)).toNat < (lEnd + 1 - i).toNat
      omega
  · rw [if_neg hle]
    exact Or.inr ⟨w, rfl, hstable, hplaced.sorted (SortedOn.of_le (by omega))⟩

/-- **THE BUBBLE SORT** sorts, and is stable. -/
theorem Q_Bubble_Sort_Improved_sorts (hB : 0 ≤ lBegin) (hB' : lBegin < INT32_MAX)
    (hE : lEnd < INT32_MAX) (key : A → K) (v : ℤ → A) :
    ∃ v', Q_Bubble_Sort_Improved key v lBegin lEnd = some v' ∧
      StableSorted key v v' lBegin lEnd := by
  have hint : int32 (lBegin + 1) = some (lBegin + 1) := int32_next hB le_rfl hB'
  have hstart : Bubbling key v lBegin lEnd (lBegin + 1, v) := by
    refine ⟨Stable.refl key v _ _, ?_, lt_add_one lBegin⟩
    show PlacedOutside (key ∘ v) lBegin lEnd (lBegin + 1 - 1) lEnd
    rw [show lBegin + 1 - 1 = lBegin by omega]
    exact PlacedOutside.start _ _ _
  rw [Q_Bubble_Sort_Improved, hint]
  exact loop_ends (fun p : ℤ × (ℤ → A) => (lEnd + 1 - p.1).toNat)
    (fun p hp => bubbleRound_spec hB hE hp) _ hstart (by dsimp only; omega)

/-! ## §5. The shell sort. -/

/-- The element `temp` at the position where it would be written now: the elements
    that are `gap` apart are in order but for it and the one before it. -/
structure Shifting (key : A → K) (v : ℤ → A) (lBegin gap i : ℤ) (temp : A) (p : ℤ × (ℤ → A)) :
    Prop where
  begin_le : lBegin ≤ p.1
  le_end : p.1 + gap ≤ i
  perm : Permuted v (update p.2 (p.1 + gap) temp) lBegin i
  order : GapSortedExcept (key ∘ update p.2 (p.1 + gap) temp) gap lBegin i (p.1 + gap)
  less : key temp < key (p.2 p.1)

theorem shellShift_eq (v : ℤ → A) {j gap : ℤ} (hgap : 0 < gap) (temp : A) :
    update (update v (j + gap) (v j)) (j - gap + gap) temp =
      swapAt (update v (j + gap) temp) (j + gap - gap) (j + gap) := by
  rw [show j - gap + gap = j by omega, show j + gap - gap = j by omega]
  funext k
  by_cases hj : k = j
  · rw [hj, swapAt_left, update_self, update_self]
  rw [update_of_ne hj]
  by_cases hg : k = j + gap
  · rw [hg, swapAt_right, update_self, update_of_ne (by omega)]
  · rw [swapAt_other _ hj hg, update_of_ne hg, update_of_ne hg]

/-- **A round** moves one element a gap up. -/
theorem shellShift_spec {gap i : ℤ} {temp : A} (hgap : 0 < gap) {p : ℤ × (ℤ → A)}
    (h : Shifting key v lBegin gap i temp p) : (∃ p', shellShift key lBegin gap temp p = some (.again p') ∧
      Shifting key v lBegin gap i temp p' ∧ (p'.1 - lBegin).toNat < (p.1 - lBegin).toNat) ∨
    ∃ v', shellShift key lBegin gap temp p = some (.done v') ∧ Permuted v v' lBegin i ∧
      GapSorted (key ∘ v') gap lBegin i := by
  obtain ⟨j, w⟩ := p
  obtain ⟨hlo, hhi, hperm, horder, hless⟩ := h
  have hround := @shellShift_eq A w j gap hgap temp
  have hswap := horder.swap hgap (by omega) hhi (by
    rw [update_self, update_of_ne (by omega), show j + gap - gap = j by omega]
    exact hless.le)
  rw [← hround, show j + gap - gap = j - gap + gap by omega] at hswap
  have hperm' : Permuted v (update (update w (j + gap) (w j)) (j - gap + gap) temp)
      lBegin i := by
    rw [hround]
    exact hperm.trans (Permuted.swapAt _ (by omega) (by omega))
  unfold shellShift
  generalize update w (j + gap) (w j) = w' at hswap hperm'
  by_cases hmore : j - gap ≥ lBegin ∧ key temp < key (w' (j - gap))
  · -- `temp` would stand in front of a greater element still
    rw [if_pos hmore]
    refine Or.inl ⟨(j - gap, w'), rfl, ⟨hmore.1, by dsimp only; omega, hperm', hswap, hmore.2⟩, ?_⟩
    omega
  rw [if_neg hmore]
  refine Or.inr ⟨_, rfl, hperm', hswap.settle fun hbegin => ?_⟩
  show key (update w' (j - gap + gap) temp (j - gap + gap - gap)) ≤
    key (update w' (j - gap + gap) temp (j - gap + gap))
  rw [update_self, update_of_ne (by omega),
    show j - gap + gap - gap = j - gap by omega]
  exact not_lt.mp fun hbad => hmore ⟨by omega, hbad⟩

/-- Before the round with `i`: elements in front of it that are `gap` apart are in
    order. -/
structure Inserting (key : A → K) (v : ℤ → A) (lBegin lEnd gap : ℤ) (p : ℤ × (ℤ → A)) : Prop where
  begin_le : lBegin + gap ≤ p.1
  perm : Permuted v p.2 lBegin lEnd
  order : GapSorted (key ∘ p.2) gap lBegin (p.1 - 1)

/-- **A round** inserts `v[i]`. -/
theorem shellInsert_spec {gap : ℤ} (hB : 0 ≤ lBegin) (hE : lEnd < INT32_MAX) (hgap : 0 < gap)
    {p : ℤ × (ℤ → A)} (h : Inserting key v lBegin lEnd gap p) :
    (∃ p', shellInsert key lBegin lEnd gap p = some (.again p') ∧
      Inserting key v lBegin lEnd gap p' ∧ (lEnd + 1 - p'.1).toNat < (lEnd + 1 - p.1).toNat) ∨
    ∃ v', shellInsert key lBegin lEnd gap p = some (.done v') ∧ Permuted v v' lBegin lEnd ∧
      GapSorted (key ∘ v') gap lBegin lEnd := by
  obtain ⟨i, w⟩ := p
  obtain ⟨hlo, hperm, horder⟩ := h
  unfold shellInsert
  by_cases hle : i ≤ lEnd
  · -- with the test of the source or without it: `v[i]` gets to its place
    have hinsert : ∃ w', (if key (w i) < key (w (i - gap)) then
          loop (shellShift key lBegin gap (w i)) ((i - lBegin).toNat + 1) (i - gap, w)
        else some w) = some w' ∧ Permuted w w' lBegin i ∧ GapSorted (key ∘ w') gap lBegin i := by
      by_cases hless : key (w i) < key (w (i - gap))
      · rw [if_pos hless]
        refine loop_ends (fun p => (p.1 - lBegin).toNat) (fun p hp => shellShift_spec hgap hp)
          ((i - lBegin).toNat + 1) ⟨?_, ?_, ?_, ?_, hless⟩ ?_
        · dsimp only
          omega
        · dsimp only
          omega
        · dsimp only
          rw [show i - gap + gap = i by omega, update_eq_self]
          exact Permuted.refl w _ _
        · dsimp only
          rw [show i - gap + gap = i by omega, update_eq_self]
          exact horder.push hgap
        · dsimp only
          omega
      · rw [if_neg hless]
        refine ⟨w, rfl, Permuted.refl w _ _, (horder.push hgap).settle fun _ => not_lt.mp hless⟩
    obtain ⟨w', hrun, hperm', horder'⟩ := hinsert
    rw [if_pos hle, hrun, Option.bind_some, int32_next (by omega) hle hE]
    refine Or.inl ⟨(i + 1, w'), rfl, ⟨?_, hperm.trans (hperm'.mono le_rfl hle), ?_⟩, ?_⟩
    · dsimp only
      omega
    · dsimp only
      rwa [show i + 1 - 1 = i by omega]
    · dsimp only
      omega
  · rw [if_neg hle]
    refine Or.inr ⟨w, rfl, hperm, fun k hk hk' => horder k hk (by omega)⟩

/-- Before a pass: the gap is that of the pass before, or the size of the range. -/
structure Passing (v : ℤ → A) (lBegin lEnd : ℤ) (p : ℤ × (ℤ → A)) : Prop where
  nonneg : 0 ≤ p.1
  le_size : p.1 ≤ lEnd - lBegin + 1
  perm : Permuted v p.2 lBegin lEnd

/-- **A pass** sorts the elements that are `gap` apart; in the last one it is one. -/
theorem shellPass_spec (hB : 0 ≤ lBegin) (hB' : lBegin < INT32_MAX) (hE : lEnd < INT32_MAX)
    {p : ℤ × (ℤ → A)} (h : Passing v lBegin lEnd p) :
    (∃ p', shellPass key lBegin lEnd p = some (.again p') ∧ Passing v lBegin lEnd p' ∧
      p'.1.toNat < p.1.toNat) ∨
    ∃ v', shellPass key lBegin lEnd p = some (.done v') ∧ KeySorted key v v' lBegin lEnd := by
  obtain ⟨gap, w⟩ := p
  obtain ⟨hgap, hgap', hperm⟩ := h
  unfold shellPass
  dsimp only
  rw [Int.tdiv_eq_ediv_of_nonneg hgap]
  have hint : int32 (lBegin + (gap / 3 + 1)) = some (lBegin + (gap / 3 + 1)) := by
    unfold INT32_MAX at hB' hE
    exact int32_of_range (by omega) (by omega)
  have hstart : Inserting key v lBegin lEnd (gap / 3 + 1) (lBegin + (gap / 3 + 1), w) :=
    ⟨le_rfl, hperm, GapSorted.of_lt (by dsimp only; omega)⟩
  obtain ⟨v', hrun, hperm', horder⟩ := loop_ends (fun p : ℤ × (ℤ → A) => (lEnd + 1 - p.1).toNat)
    (fun p hp => shellInsert_spec hB hE (by omega) hp) ((lEnd - lBegin).toNat + 1) hstart
    (by dsimp only; omega)
  rw [hint, Option.bind_some, hrun]
  by_cases hmore : gap / 3 + 1 > 1
  · -- `gap/3+1` is less than a gap of 2 or more
    refine Or.inl ⟨(gap / 3 + 1, v'), congrArg some (if_pos hmore), ⟨?_, ?_, hperm'⟩, ?_⟩
    · dsimp only
      omega
    · dsimp only
      omega
    · dsimp only
      omega
  · rw [show gap / 3 + 1 = 1 by omega] at horder
    exact Or.inr ⟨v', congrArg some (if_neg hmore), hperm', horder.sorted⟩

/-- **THE SHELL SORT** sorts. -/
theorem Q_Shell_Sort_sorts (hB : 0 ≤ lBegin) (hB' : lBegin < INT32_MAX) (hBE : lBegin ≤ lEnd + 1)
    (hE : lEnd < INT32_MAX) (key : A → K) (v : ℤ → A) :
    ∃ v', Q_Shell_Sort key v lBegin lEnd = some v' ∧ KeySorted key v v' lBegin lEnd := by
  have hint : int32 (lEnd - lBegin + 1) = some (lEnd - lBegin + 1) := by
    unfold INT32_MAX at hE
    exact int32_of_range (by omega) (by omega)
  have hstart : Passing v lBegin lEnd (lEnd - lBegin + 1, v) :=
    ⟨by dsimp only; omega, le_rfl, Permuted.refl v _ _⟩
  rw [Q_Shell_Sort, hint]
  exact loop_ends (fun p : ℤ × (ℤ → A) => p.1.toNat) (fun p hp => shellPass_spec hB hB' hE hp) _ hstart
    (Nat.lt_succ_self _)

/-! ## §6. The selection sort. -/

/-- The scan finds the least element behind `i`. -/
theorem selectScan_spec {i : ℤ} (hi : 0 ≤ i) (hle : i < lEnd) (hE : lEnd < INT32_MAX) (key : A → K)
    (w : ℤ → A) : ∃ k, loop (selectScan key w lEnd) ((lEnd - i).toNat + 1) (i + 1, i) = some k ∧
      (i ≤ k ∧ k ≤ lEnd) ∧ ∀ x, i ≤ x → x ≤ lEnd → key (w k) ≤ key (w x) := by
  refine loop_ends
    (I := fun p : ℤ × ℤ => i < p.1 ∧ i ≤ p.2 ∧ p.2 ≤ lEnd ∧
      ∀ x, i ≤ x → x < p.1 → x ≤ lEnd → key (w p.2) ≤ key (w x))
    (fun p => (lEnd + 1 - p.1).toNat) (fun p hp => ?_) _
    ⟨lt_add_one i, le_rfl, hle.le, fun x hx hx' _ => ?_⟩ ?_
  · obtain ⟨j, k⟩ := p
    obtain ⟨hj, hk, hk', hleast⟩ := hp
    unfold selectScan
    by_cases hmore : j ≤ lEnd
    · rw [if_pos hmore, int32_next (by omega) hmore hE]
      refine Or.inl ⟨_, rfl, ?_, by dsimp only; omega⟩
      by_cases hless : key (w j) < key (w k)
      · -- `j` is the least one now
        rw [if_pos hless]
        refine ⟨by omega, by omega, hmore, fun x hx hx' hx'' => ?_⟩
        by_cases hxj : x = j
        · rw [hxj]
        · exact hless.le.trans (hleast x hx (by omega) hx'')
      rw [if_neg hless]
      refine ⟨by omega, hk, hk', fun x hx hx' hx'' => ?_⟩
      by_cases hxj : x = j
      · rw [hxj]
        exact not_lt.mp hless
      · exact hleast x hx (by omega) hx''
    · rw [if_neg hmore]
      exact Or.inr ⟨k, rfl, ⟨hk, hk'⟩, fun x hx hx' => hleast x hx (by omega) hx'⟩
  · dsimp only at hx'
    rw [show x = i by omega]
  · dsimp only
    omega

/-- **THE SELECTION SORT** sorts. -/
theorem Q_Slect_Sort_sorts (hB : 0 ≤ lBegin) (hE : lEnd < INT32_MAX) (key : A → K) (v : ℤ → A) :
    ∃ v', Q_Slect_Sort key v lBegin lEnd = some v' ∧ KeySorted key v v' lBegin lEnd := by
  refine loop_ends
    (I := fun p : ℤ × (ℤ → A) => lBegin ≤ p.1 ∧ Permuted v p.2 lBegin lEnd ∧
      PlacedOutside (key ∘ p.2) lBegin lEnd p.1 lEnd)
    (fun p => (lEnd - p.1).toNat) (fun p hp => ?_) _
    ⟨le_rfl, Permuted.refl v _ _, PlacedOutside.start _ _ _⟩ ?_
  · obtain ⟨i, w⟩ := p
    obtain ⟨hi, hperm, hplaced⟩ := hp
    unfold selectRound
    by_cases hmore : i < lEnd
    · obtain ⟨k, hrun, hk, hleast⟩ := selectScan_spec (by omega) hmore hE key w
      rw [if_pos hmore, hrun, Option.bind_some, int32_next (by omega) hmore.le hE]
      -- the swap that is left out is the one of an element with itself
      have hif : (if k ≠ i then swapAt w i k else w) = w ∘ Equiv.swap i k := by
        by_cases hki : k = i
        · rw [if_neg (not_not.mpr hki), hki, Equiv.swap_self]
          rfl
        · rw [if_pos hki, swapAt_eq]
      have hswap : Moves i lEnd (Equiv.swap i k) := Moves.swap (by omega) hk
      refine Or.inl ⟨_, rfl, ⟨by dsimp only; omega, ?_, ?_⟩, by dsimp only; omega⟩
      · dsimp only
        rw [hif]
        exact hperm.trans (Permuted.swap w (by omega) (by omega))
      · dsimp only
        rw [hif]
        refine (hplaced.moved hswap hi le_rfl).first fun x hx hx' => ?_
        have hin := hswap.inside ⟨hx, hx'⟩
        show key (w (Equiv.swap i k i)) ≤ key (w (Equiv.swap i k x))
        rw [Equiv.swap_apply_left]
        exact hleast _ hin.1 hin.2
    · rw [if_neg hmore]
      exact Or.inr ⟨w, rfl, hperm, hplaced.sorted (SortedOn.of_le (by omega))⟩
  · dsimp only
    omega

end Sorting

/-! ## §7. All five. -/

/-- The five sorts of a range that begins at 0 return the same array, and it is the
    sorted one. -/
def SortersAgree (v : ℤ → K) (lEnd : ℤ) : Prop :=
  ∃ v', KeySorted id v v' 0 lEnd ∧ Q_Bubble_Sort_Improved id v 0 lEnd = some v' ∧
    Q_Insert_Sort id v 0 lEnd = some v' ∧ Q_Shell_Sort id v 0 lEnd = some v' ∧
    Q_Slect_Sort id v 0 lEnd = some v' ∧ Q_Heap_Sort id v (lEnd + 1) = some v'

/-- The two sorts that are called stable are. -/
def StableSortersAgree (key : A → K) (v : ℤ → A) (lEnd : ℤ) : Prop :=
  (∃ v', Q_Bubble_Sort_Improved key v 0 lEnd = some v' ∧ StableSorted key v v' 0 lEnd) ∧
    ∃ v', Q_Insert_Sort key v 0 lEnd = some v' ∧ StableSorted key v v' 0 lEnd

section Agreement

variable {key : A → K} {v v' v'' : ℤ → K} {w : ℤ → A} {lEnd : ℤ}

theorem KeySorted.unique (h : KeySorted id v v' 0 lEnd) (h' : KeySorted id v v'' 0 lEnd) : v'' = v' := by
  show id ∘ v'' = id ∘ v'
  exact sorted_keys_unique h'.1 h.1 h'.2 h.2

theorem insert_returns_iff (key : A → K) (w : ℤ → A) (lEnd : ℤ) :
    (∃ w', Q_Insert_Sort key w 0 lEnd = some w' ∧ StableSorted key w w' 0 lEnd) ↔
      InsertFits key w 0 lEnd := by
  constructor
  · intro h
    obtain ⟨w', hrun, -⟩ := h
    by_contra hbad
    rw [Q_Insert_Sort_eq_none le_rfl hbad] at hrun
    cases hrun
  · exact Q_Insert_Sort_eq_some le_rfl

theorem heap_sorts (hE : -1 ≤ lEnd) (hE' : lEnd < INT32_MAX) (hfits : HeapFits key w (lEnd + 1)) :
    ∃ w', Q_Heap_Sort key w (lEnd + 1) = some w' ∧ KeySorted key w w' 0 lEnd := by
  refine ⟨_, (Q_Heap_Sort_eq_some (by omega)).mpr ⟨hfits, rfl⟩, ?_⟩
  obtain ⟨n, hn⟩ : ∃ n : ℕ, lEnd + 1 = n := ⟨(lEnd + 1).toNat, by omega⟩
  have hsorted := taken_spec key w n
  rw [show lEnd = n - 1 by omega, show (n : ℤ) - 1 + 1 = n by omega]
  exact hsorted

/-- **THE FIVE SORTS RETURN THE SAME ARRAY** if and only if the sums of the insertion
    sort and the calls of the heap sort fit.  The two that are called stable are, if
    and only if the sums fit. -/
theorem elementary_sorts_iff (hE : -1 ≤ lEnd) (hE' : lEnd < INT32_MAX) (v : ℤ → K) (key : A → K)
    (w : ℤ → A) :
    (SortersAgree v lEnd ↔ InsertFits id v 0 lEnd ∧ HeapFits id v (lEnd + 1)) ∧
      (StableSortersAgree key w lEnd ↔ InsertFits key w 0 lEnd) := by
  have hmax : (0 : ℤ) < INT32_MAX := by decide
  refine ⟨⟨fun h => ?_, fun h => ?_⟩, ⟨fun h => ?_, fun h => ?_⟩⟩
  · obtain ⟨v', -, -, hinsert, -, -, hheap⟩ := h
    refine ⟨?_, ((Q_Heap_Sort_eq_some (by omega)).mp hheap).1⟩
    by_contra hbad
    rw [Q_Insert_Sort_eq_none le_rfl hbad] at hinsert
    cases hinsert
  · -- all five sort, and there is one sorted array
    obtain ⟨hinsert, hheap⟩ := h
    obtain ⟨vb, hbubble, hb⟩ := Q_Bubble_Sort_Improved_sorts le_rfl hmax hE' id v
    obtain ⟨vi, hinsert, hi⟩ := (insert_returns_iff id v lEnd).mpr hinsert
    obtain ⟨vs, hshell, hs⟩ := Q_Shell_Sort_sorts le_rfl hmax (by omega) hE' id v
    obtain ⟨vl, hslect, hl⟩ := Q_Slect_Sort_sorts le_rfl hE' id v
    obtain ⟨vh, hheap, hh⟩ := heap_sorts hE hE' hheap
    have hsorted := hb.keySorted
    rw [hsorted.unique hi.keySorted] at hinsert
    rw [hsorted.unique hs] at hshell
    rw [hsorted.unique hl] at hslect
    rw [hsorted.unique hh] at hheap
    exact ⟨vb, hsorted, hbubble, hinsert, hshell, hslect, hheap⟩
  · exact (insert_returns_iff key w lEnd).mp h.2
  · exact ⟨Q_Bubble_Sort_Improved_sorts le_rfl hmax hE' key w, (insert_returns_iff key w lEnd).mpr h⟩

end Agreement

/-- Three elements in descending order, and three with one key. -/
theorem elementary_sorts_iff_three : SortersAgree (fun i : ℤ => -i) 2 ∧
    StableSortersAgree (fun _ : ℤ => (0 : ℤ)) id 2 := by
  have hsorts := elementary_sorts_iff (by decide : (-1 : ℤ) ≤ 2) (by decide) (fun i : ℤ => -i)
    (fun _ : ℤ => (0 : ℤ)) id
  exact ⟨hsorts.1.mpr ⟨insertFits_of_le _ _ (by decide) (by decide),
      heapFits_of_lt _ _ (by decide) (by decide)⟩,
    hsorts.2.mpr (insertFits_of_le _ _ (by decide) (by decide))⟩

/-- 2³⁰ elements in ascending order: the first call of `heapAdjust` takes one to the
    last cell, the second child of which is at 2³¹. -/
theorem ascending_heap_overflows : ¬ SortersAgree (id : ℤ → ℤ) (2 ^ 30 - 1) := by
  intro h
  obtain ⟨v', -, -, -, -, -, hheap⟩ := h
  obtain ⟨⟨hrounds, -⟩, -⟩ := (Q_Heap_Sort_eq_some (by decide)).mp hheap
  have hhalf : (((2 : ℤ) ^ 30 - 1 + 1).tdiv 2).toNat = 536870911 + 1 := by decide
  rw [hhalf, AllRounds] at hrounds
  have hfits := hrounds.1
  unfold SinkFits at hfits
  have hfuel : ((2 : ℤ) ^ 30 - 1 + 1).toNat = 1073741823 + 1 := by decide
  -- the last cell with a child has one, which is greater
  have hlargest : largestOf id (id : ℤ → ℤ) (2 ^ 30 - 1 + 1) (536870911 : ℕ) = 1073741823 := by decide
  rw [hfuel, restOf, Function.update_eq_self, hlargest, if_pos (by decide)] at hfits
  have hdeep := le_restOf id (id : ℤ → ℤ) (2 ^ 30 - 1 + 1) (id ((536870911 : ℕ) : ℤ)) 1073741823
    (by decide : (0 : ℤ) ≤ 1073741823)
  omega

end KalavaPir.Common
