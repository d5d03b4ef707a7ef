/-
  KalavaPir.Common.QQuickSort3 — the quicksort with three parts,
  `common/qalgorithm.h`.

  Elements that are equal to the pivot are parked at both ends of the range, and
  swapped back to the middle afterwards.  The swaps back from the left begin at
  `k=1`, and not at `lBegin`: they reach outside of a range that begins further
  up.  Accesses are checked against the range that the sort was called for, from
  `lo` to `hi`.
-/
import Mathlib.Data.Int.Range
import KalavaPir.Common.QQuickSort

namespace KalavaPir.Common.QuickSort3

open KalavaPir.Framework Option
open KalavaPir.Common.QuickSort (occurs)

variable {A : Type}

/-! ## §1. `Q_Quick_Sort_3` (qalgorithm.h:286). -/

/-- The variables of the partition. -/
structure Parts (A : Type) where
  v : ℤ → A
  i : ℤ
  j : ℤ
  p : ℤ
  q : ℤ

section Source

variable [LinearOrder A] (lo hi : ℤ)

/-- `v[x]` -/
def peek (v : ℤ → A) (x : ℤ) : Option A := if lo ≤ x ∧ x ≤ hi then some (v x) else none

/-- `T_KEY temp=v[x]; v[x]=v[y]; v[y]=temp;` -/
def exchange (v : ℤ → A) (x y : ℤ) : Option (ℤ → A) :=
  if (lo ≤ x ∧ x ≤ hi) ∧ lo ≤ y ∧ y ≤ hi then some (swapAt v x y) else none

/-- `while(v[++i]<pivot) if(i==j) break;`, where the number is `hi-i+1`. -/
def scanUp (v : ℤ → A) (pivot : A) (j : ℤ) : ℕ → ℤ → Option ℤ
  | 0, _ => none
  | n + 1, i =>
    (peek lo hi v (i + 1)).bind fun a =>
      if a < pivot then if i + 1 = j then some (i + 1) else scanUp v pivot j n (i + 1)
      else some (i + 1)

/-- `while(pivot<v[--j]) if(j==i) break;`, where the number is `j-lo+1`. -/
def scanDown (v : ℤ → A) (pivot : A) (i : ℤ) : ℕ → ℤ → Option ℤ
  | 0, _ => none
  | n + 1, j =>
    (peek lo hi v (j - 1)).bind fun a =>
      if pivot < a then if j - 1 = i then some (j - 1) else scanDown v pivot i n (j - 1)
      else some (j - 1)

/-- `if(v[x]==pivot) { … }`: an element that is equal to the pivot is parked at `y`. -/
def park (v : ℤ → A) (pivot : A) (x y y' : ℤ) : Option ((ℤ → A) × ℤ) :=
  if v x = pivot then (exchange lo hi v y x).map fun v => (v, y) else some (v, y')

/-- A round of `while(1) { … }`. -/
def partsRound (pivot : A) (s : Parts A) : Option (LoopStep (Parts A) (Parts A)) :=
  (scanUp lo hi s.v pivot s.j (hi - s.i + 1).toNat s.i).bind fun i =>
    (scanDown lo hi s.v pivot i (s.j - lo + 1).toNat s.j).bind fun j =>
      if i ≥ j then some (.done { s with i := i, j := j })
      else
        (exchange lo hi s.v i j).bind fun v =>
          (park lo hi v pivot i (s.p + 1) s.p).bind fun l =>
            (park lo hi l.1 pivot j (s.q - 1) s.q).map fun r =>
              .again { v := r.1, i := i, j := j, p := l.2, q := r.2 }

/-- `for(; …; x++, y--) { … }`: `n` swaps of elements that get closer to each other. -/
def swapBack : ℕ → ℤ → ℤ → (ℤ → A) → Option (ℤ → A)
  | 0, _, _, v => some v
  | n + 1, x, y, v => (exchange lo hi v x y).bind (swapBack n (x + 1) (y - 1))

/-- From `i=lBegin-1;` to the recursive calls: the array, and `j` and `i`. -/
def partition3 (v : ℤ → A) (lBegin lEnd : ℤ) : Option ((ℤ → A) × ℤ × ℤ) :=
  (peek lo hi v lEnd).bind fun pivot =>
    (loop (partsRound lo hi pivot) ((lEnd - lBegin).toNat + 1)
        { v := v, i := lBegin - 1, j := lEnd, p := lBegin - 1, q := lEnd }).bind fun s =>
      (exchange lo hi s.v s.i lEnd).bind fun v =>
        -- `j=i-1; i++;`
        (int32 (s.i + 1)).bind fun i =>
          -- `k` from 1 to `p`, then `k` from `lEnd-1` down to `q`
          (swapBack lo hi s.p.toNat 1 (s.i - 1) v).bind fun v =>
            (swapBack lo hi (lEnd - s.q).toNat i (lEnd - 1) v).bind fun v =>
              (int32 (i + (lEnd - s.q).toNat)).map fun i' => (v, s.i - 1 - s.p.toNat, i')

/-- The function, with fuel for the depth of the recursion. -/
def Q_Quick_Sort_3 : ℕ → (ℤ → A) → ℤ → ℤ → Option (ℤ → A)
  | 0, _, _, _ => none
  | fuel + 1, v, lBegin, lEnd =>
    if lEnd ≤ lBegin then some v
    else
      (partition3 lo hi v lBegin lEnd).bind fun r =>
        (Q_Quick_Sort_3 fuel r.1 lBegin r.2.1).bind fun v => Q_Quick_Sort_3 fuel v r.2.2 lEnd

end Source

/-! ## §2. The swaps back. -/

section SwapBack

variable {lo hi : ℤ} {v : ℤ → A}

variable {x : ℤ}

theorem peek_eq (hlo : lo ≤ x) (hhi : x ≤ hi) : peek lo hi v x = some (v x) := if_pos ⟨hlo, hhi⟩

theorem exchange_eq {y : ℤ} (hx : lo ≤ x ∧ x ≤ hi) (hy : lo ≤ y ∧ y ≤ hi) :
    exchange lo hi v x y = some (swapAt v x y) := if_pos ⟨hx, hy⟩

/-- The elements from `x` on and those up to `y`, `n` of each, change places; but
    where the two overlap they change them twice. -/
def mirror (n : ℕ) (x y : ℤ) (v : ℤ → A) (z : ℤ) : A :=
  if (x ≤ z ∧ z < x + n) ↔ (y - n < z ∧ z ≤ y) then v z else v (x + y - z)

theorem mirror_zero (x y : ℤ) (v : ℤ → A) : mirror 0 x y v = v := by
  funext z
  exact if_pos (by push_cast; omega)

/-- One swap more, in front of the others. -/
theorem mirror_succ (n : ℕ) (x y : ℤ) (v : ℤ → A) :
    mirror n (x + 1) (y - 1) (swapAt v x y) = mirror (n + 1) x y v := by
  funext z
  unfold mirror
  rw [show x + 1 + (y - 1) - z = x + y - z by omega]
  by_cases hx : z = x
  · subst hx
    rw [show z + y - z = y by omega, swapAt_left, swapAt_right]
    by_cases hy : z = y
    · rw [hy, ite_self, ite_self]
    · split_ifs <;> first | rfl | omega
  by_cases hy : z = y
  · subst hy
    rw [show x + z - z = x by omega, swapAt_left, swapAt_right]
    split_ifs <;> first | rfl | omega
  · rw [swapAt_other v hx hy, swapAt_other v (by omega) (by omega)]
    split_ifs <;> first | rfl | omega

/-- **THE SWAPS BACK** inside of the range. -/
theorem swapBack_eq (n : ℕ) : ∀ {x y : ℤ} (v : ℤ → A),
    (n = 0 ∨ (lo ≤ x ∧ x + n - 1 ≤ hi) ∧ lo ≤ y - n + 1 ∧ y ≤ hi) →
      swapBack lo hi n x y v = some (mirror n x y v) := by
  induction n with
  | zero =>
    intro x y v _
    rw [mirror_zero]
    rfl
  | succ n ih =>
    intro x y v hin
    obtain ⟨⟨hx, hx'⟩, hy, hy'⟩ := hin.resolve_left (Nat.succ_ne_zero n)
    rw [swapBack, exchange_eq (by omega) (by omega), bind_some, ih _ (by omega), mirror_succ]

/-- Swapping back rearranges. -/
theorem mirror_permuted {m k : ℤ} (n : ℕ) : ∀ {x y : ℤ} (v : ℤ → A),
    (n = 0 ∨ (m ≤ x ∧ x + n - 1 ≤ k) ∧ m ≤ y - n + 1 ∧ y ≤ k) → Permuted v (mirror n x y v) m k := by
  induction n with
  | zero =>
    intro x y v _
    rw [mirror_zero]
    exact Permuted.refl v m k
  | succ n ih =>
    intro x y v hin
    obtain ⟨⟨hx, hx'⟩, hy, hy'⟩ := hin.resolve_left (Nat.succ_ne_zero n)
    rw [← mirror_succ]
    exact (Permuted.swapAt v (by omega) (by omega)).trans (ih _ (by omega))

/-- A swap in front of the range. -/
theorem swapBack_outside {n : ℕ} {y : ℤ} (v : ℤ → A) (hn : n ≠ 0) (hx : x < lo) :
    swapBack lo hi n x y v = none := by
  obtain ⟨k, rfl⟩ : ∃ k, n = k + 1 := ⟨n - 1, by omega⟩
  have hout : exchange lo hi v x y = none := if_neg (by omega)
  rw [swapBack, hout]
  rfl

end SwapBack

/-! ## §3. The scans. -/

variable [LinearOrder A]

section Scans

variable {lo hi : ℤ} {v : ℤ → A} {pivot : A}

/-- The scan upwards ends at the first element that is not less; at `j` there is one. -/
theorem scanUp_spec {j : ℤ} (hj : pivot ≤ v j) (hhi : j ≤ hi) (n : ℕ) : ∀ {i : ℤ}, lo ≤ i + 1 → i < j →
    j - i ≤ n → ∃ i', scanUp lo hi v pivot j n i = some i' ∧ i < i' ∧ i' ≤ j ∧
      (∀ x, i < x → x < i' → v x < pivot) ∧ pivot ≤ v i' := by
  induction n with
  | zero =>
    intro i _ hij hn
    omega
  | succ n ih =>
    intro i hlo hij hn
    rw [scanUp, peek_eq hlo (by omega), bind_some]
    by_cases hlt : v (i + 1) < pivot
    · have hne : i + 1 ≠ j := fun heq => absurd hlt (not_lt.mpr (heq ▸ hj))
      obtain ⟨i', hrun, hii', hi'j, hless, hge⟩ := ih (i := i + 1) (by omega) (by omega) (by omega)
      rw [if_pos hlt, if_neg hne]
      refine ⟨i', hrun, by omega, hi'j, fun x hx hx' => ?_, hge⟩
      by_cases heq : x = i + 1
      · rw [heq]
        exact hlt
      · exact hless x (by omega) hx'
    · rw [if_neg hlt]
      exact ⟨i + 1, rfl, by omega, by omega, fun x hx hx' => by omega, not_lt.mp hlt⟩

/-- The scan downwards ends at `i` at the latest, if it begins above. -/
theorem scanDown_spec {i : ℤ} (hlo : lo ≤ i) (n : ℕ) : ∀ {j : ℤ}, j ≤ hi + 1 → i < j →
    j - i ≤ n → ∃ j', scanDown lo hi v pivot i n j = some j' ∧ i ≤ j' ∧ j' < j ∧
      (∀ x, j' < x → x < j → pivot < v x) ∧ (i < j' → v j' ≤ pivot) := by
  induction n with
  | zero =>
    intro j _ hij hn
    omega
  | succ n ih =>
    intro j hhi hij hn
    rw [scanDown, peek_eq (by omega) (by omega), bind_some]
    by_cases hgt : pivot < v (j - 1)
    · rw [if_pos hgt]
      by_cases hmeet : j - 1 = i
      · -- the break
        rw [if_pos hmeet]
        exact ⟨j - 1, rfl, by omega, by omega, fun x hx hx' => by omega, fun hx => by omega⟩
      obtain ⟨j', hrun, hij', hj'j, hmore, hle⟩ := ih (j := j - 1) (by omega) (by omega) (by omega)
      rw [if_neg hmeet]
      refine ⟨j', hrun, hij', by omega, fun x hx hx' => ?_, hle⟩
      by_cases heq : x = j - 1
      · rw [heq]
        exact hgt
      · exact hmore x hx (by omega)
    · rw [if_neg hgt]
      exact ⟨j - 1, rfl, by omega, by omega, fun x hx hx' => by omega, fun _ => not_lt.mp hgt⟩

theorem scanDown_here {i j : ℤ} (hlo : lo ≤ j - 1) (hhi : j - 1 ≤ hi) (hle : v (j - 1) ≤ pivot) (n : ℕ) :
    scanDown lo hi v pivot i (n + 1) j = some (j - 1) := by
  rw [scanDown, peek_eq hlo hhi, bind_some, if_neg (not_lt.mpr hle)]

end Scans

/-! ## §4. The parts. -/

section Parts

variable {lo hi b e : ℤ} {u : ℤ → A} {a : A} {s : Parts A}

/-- **The invariant of the partition**: from left to right the range holds parked
    elements, smaller ones, elements that have not been looked at, greater ones,
    and parked elements again. -/
structure PartsAt (u : ℤ → A) (a : A) (b e : ℤ) (s : Parts A) : Prop where
  perm : Permuted u s.v b (e - 1)
  p_lower : b - 1 ≤ s.p
  p_le_i : s.p ≤ s.i
  i_lt_j : s.i < s.j
  b_lt_j : b < s.j
  j_le_q : s.j ≤ s.q
  q_upper : s.q ≤ e
  parked_left : ∀ x, b ≤ x → x ≤ s.p → s.v x = a
  smaller : ∀ x, s.p < x → x ≤ s.i → s.v x < a
  rest : ∀ x, s.i < x → x < s.j → s.v x = u x
  greater : ∀ x, s.j ≤ x → x < s.q → a < s.v x
  parked_right : ∀ x, s.q ≤ x → x ≤ e → s.v x = a
  /-- without greater elements every round parks one on the right -/
  none_greater : (∀ x, b ≤ x → x < e → u x ≤ a) → s.j = s.q ∧ s.j = e - occurs u b s.i a

/-- **How the partition ends**: the positions have met at `i`, an element that is
    not less. -/
structure Parked (u : ℤ → A) (a : A) (b e : ℤ) (s : Parts A) : Prop where
  perm : Permuted u s.v b (e - 1)
  p_lower : b - 1 ≤ s.p
  p_lt_i : s.p < s.i
  b_le_i : b ≤ s.i
  i_le_q : s.i ≤ s.q
  q_upper : s.q ≤ e
  parked_left : ∀ x, b ≤ x → x ≤ s.p → s.v x = a
  smaller : ∀ x, s.p < x → x < s.i → s.v x < a
  stop : a ≤ s.v s.i
  greater : ∀ x, s.i < x → x < s.q → a < s.v x
  parked_right : ∀ x, s.q ≤ x → x ≤ e → s.v x = a
  none_greater : (∀ x, b ≤ x → x < e → u x ≤ a) →
    (s.i < s.q ↔ ∃ x, b ≤ x ∧ x < e ∧ u x = a ∧ (occurs u b x a : ℤ) = e - x)

/-- Before the first round. -/
theorem PartsAt.start (u : ℤ → A) {b e : ℤ} (hbe : b < e) :
    PartsAt u (u e) b e { v := u, i := b - 1, j := e, p := b - 1, q := e } where
  perm := Permuted.refl u b (e - 1)
  p_lower := le_rfl
  p_le_i := le_rfl
  i_lt_j := by dsimp only; omega
  b_lt_j := hbe
  j_le_q := le_rfl
  q_upper := le_rfl
  parked_left x hx hx' := by dsimp only at hx'; omega
  smaller x hx hx' := absurd hx' (not_le.mpr hx)
  rest _ _ _ := rfl
  greater x hx hx' := absurd hx' (not_lt.mpr hx)
  parked_right x hx hx' := by rw [le_antisymm hx' hx]
  none_greater _ := by
    have hnone : occurs u b (b - 1) (u e) = 0 := countIn_empty _ u (by omega)
    refine ⟨rfl, ?_⟩
    dsimp only
    omega

/-! ### Counting the elements that are equal to the pivot. -/

variable {x i j : ℤ} {v : ℤ → A}

theorem occurs_succ (hbx : b ≤ x) (h : u x = a) : occurs u b x a = occurs u b (x - 1) a + 1 :=
  QuickSort.occurs_last hbx h

theorem occurs_mono {y : ℤ} (hxy : x ≤ y) : occurs u b x a ≤ occurs u b y a :=
  countIn_mono _ u hxy

theorem occurs_between {y : ℤ} (hxy : x ≤ y) (hne : ∀ z, x < z → z ≤ y → u z ≠ a) :
    occurs u b y a = occurs u b x a :=
  countIn_between _ u hxy hne

/-! ### A round. -/

/-- What the two scans leave. -/
structure Scanned (a : A) (s : Parts A) (i j : ℤ) : Prop where
  i_lower : s.i < i
  i_upper : i ≤ s.j
  j_lower : i - 1 ≤ j
  j_upper : j < s.j
  below : ∀ x, s.i < x → x < i → s.v x < a
  up : a ≤ s.v i
  above : ∀ x, j < x → x < s.j → i ≤ x → a < s.v x
  down : i < j → s.v j ≤ a
  /-- nothing is left between the positions -/
  met : j < i → i = s.j

section

variable (h : PartsAt u a b e s)
include h

theorem PartsAt.ge_j : a ≤ s.v s.j := by
  by_cases hq : s.j < s.q
  · exact (h.greater s.j le_rfl hq).le
  · have hjq := h.j_le_q
    exact (h.parked_right s.j (by omega) (le_trans hjq h.q_upper)).ge

theorem PartsAt.le_i (hb : b ≤ s.i) : s.v s.i ≤ a := by
  by_cases hp : s.p < s.i
  · exact (h.smaller s.i hp le_rfl).le
  · exact (h.parked_left s.i hb (by omega)).le

/-- **The scans** stay in the range. -/
theorem PartsAt.scans (hlo : lo ≤ b) (hhi : e ≤ hi) : ∃ i j,
    scanUp lo hi s.v a s.j (hi - s.i + 1).toNat s.i = some i ∧
      scanDown lo hi s.v a i (s.j - lo + 1).toNat s.j = some j ∧ Scanned a s i j := by
  have hp := h.p_lower
  have hpi := h.p_le_i
  have hij := h.i_lt_j
  have hbj := h.b_lt_j
  have hje := le_trans h.j_le_q h.q_upper
  obtain ⟨i, hup, hsi, hij', hbelow, hge⟩ := scanUp_spec h.ge_j (by omega : s.j ≤ hi)
    (hi - s.i + 1).toNat (by omega : lo ≤ s.i + 1) hij (by omega)
  by_cases hlt : i < s.j
  · obtain ⟨j, hdown, hj, hj', habove, hle⟩ := @scanDown_spec A _ lo hi s.v a i (by omega)
      (s.j - lo + 1).toNat s.j (by omega) hlt (by omega)
    exact ⟨i, j, hup, hdown, hsi, hij', by omega, hj', hbelow, hge, fun x hx hx' _ => habove x hx hx', hle,
      fun hx => by omega⟩
  -- everything up to `j` is less: the scan downwards ends at once
  obtain rfl : i = s.j := by omega
  have hle : s.v (s.j - 1) ≤ a := by
    by_cases hnear : s.i < s.j - 1
    · exact (hbelow _ hnear (by omega)).le
    · rw [show s.j - 1 = s.i by omega]
      exact h.le_i (by omega)
  obtain ⟨k, hk⟩ : ∃ k, (s.j - lo + 1).toNat = k + 1 := ⟨(s.j - lo).toNat, by omega⟩
  refine ⟨s.j, s.j - 1, hup, ?_, hsi, le_rfl, le_rfl, by omega, hbelow, hge,
    fun x hx hx' hx'' => by omega, fun hx => by omega, fun _ => rfl⟩
  rw [hk]
  exact scanDown_here (by omega) (by omega) hle k

/-- **The last round.** -/
theorem PartsAt.done (hs : Scanned a s i j) (hji : j ≤ i) : Parked u a b e { s with i := i, j := j } := by
  obtain ⟨hi, hi', hj, hj', hbelow, hge, habove, -, hmet⟩ := hs
  have hp := h.p_lower
  have hpi := h.p_le_i
  have hjq := h.j_le_q
  have hqe := h.q_upper
  refine ⟨h.perm, hp, by dsimp only; omega, by dsimp only; omega, by dsimp only; omega, hqe,
    h.parked_left, fun x hx hx' => ?_, hge, fun x hx hx' => ?_, h.parked_right, fun hnone => ?_⟩
  · dsimp only at hx hx' ⊢
    by_cases hold : x ≤ s.i
    · exact h.smaller x hx hold
    · exact hbelow x (by omega) hx'
  · dsimp only at hx hx' ⊢
    by_cases hold : x < s.j
    · exact habove x (by omega) hold (by omega)
    · exact h.greater x (by omega) hx'
  · obtain ⟨hjq', hcount⟩ := h.none_greater hnone
    dsimp only
    -- the elements up to `i` are less
    have hbetween : ∀ y, s.i ≤ y → y < i → occurs u b y a = occurs u b s.i a := fun y hy hy' =>
      occurs_between hy fun z hz hz' => by
        rw [← h.rest z hz (by omega)]
        exact ne_of_lt (hbelow z hz (by omega))
    constructor
    · intro hlt
      -- the scan upwards has stopped at the pivot, and the other one at once
      have heq : u i = a := by
        rw [← h.rest i hi (by omega)]
        refine le_antisymm ?_ hge
        rw [h.rest i hi (by omega)]
        exact hnone i (by omega) (by omega)
      have hlast : j = s.j - 1 := by
        by_contra hbad
        have hgt := habove (s.j - 1) (by omega) (by omega) (by omega)
        rw [h.rest (s.j - 1) (by omega) (by omega)] at hgt
        exact absurd hgt (not_lt.mpr (hnone (s.j - 1) (by omega) (by omega)))
      refine ⟨i, by omega, by omega, heq, ?_⟩
      rw [occurs_succ (by omega) heq, hbetween (i - 1) (by omega) (by omega)]
      omega
    · intro hex
      obtain ⟨x, hx, hx', heq, hcard⟩ := hex
      by_contra hbad
      -- then all elements have been parked or are less: where is `x`?
      by_cases hxi : x ≤ s.i
      · have hle := occurs_mono (u := u) (b := b) (a := a) hxi
        omega
      by_cases hxj : x < i
      · have hlt := hbelow x (by omega) hxj
        rw [h.rest x (by omega) (by omega), heq] at hlt
        exact lt_irrefl _ hlt
      have hmore := occurs_succ hx heq
      have hle := occurs_mono (u := u) (b := b) (a := a) (by omega : i - 1 ≤ x - 1)
      rw [hbetween (i - 1) (by omega) (by omega)] at hle
      omega

end

/-- An element that is equal to the pivot goes to the parked ones on the left. -/
theorem park_left {p : ℤ} (hp : b - 1 ≤ p) (hpi : p < i) (hlo : lo ≤ b) (hhi : i ≤ hi)
    (hparked : ∀ x, b ≤ x → x ≤ p → v x = a) (hsmaller : ∀ x, p < x → x < i → v x < a) (hle : v i ≤ a) :
    ∃ w p', park lo hi v a i (p + 1) p = some (w, p') ∧ Permuted v w b i ∧
      p ≤ p' ∧ p' ≤ i ∧ (∀ x, b ≤ x → x ≤ p' → w x = a) ∧ ∀ x, p' < x → x ≤ i → w x < a := by
  unfold park
  by_cases heq : v i = a
  · rw [if_pos heq, exchange_eq (by omega) (by omega), map_some]
    refine ⟨_, _, rfl, Permuted.swapAt v (by omega) (by omega), by omega, by omega,
      fun x hx hx' => ?_, fun x hx hx' => ?_⟩
    · by_cases hlast : x = p + 1
      · rw [hlast, swapAt_left, heq]
      · rw [swapAt_other v hlast (by omega)]
        exact hparked x hx (by omega)
    · by_cases hlast : x = i
      · rw [hlast, swapAt_right]
        exact hsmaller (p + 1) (by omega) (by omega)
      · rw [swapAt_other v (by omega) hlast]
        exact hsmaller x (by omega) (by omega)
  · rw [if_neg heq]
    refine ⟨_, _, rfl, Permuted.refl v b i, le_rfl, by omega, hparked, fun x hx hx' => ?_⟩
    by_cases hlast : x = i
    · rw [hlast]
      exact lt_of_le_of_ne hle heq
    · exact hsmaller x hx (by omega)

/-- And to those on the right. -/
theorem park_right {q : ℤ} (hq : q ≤ e) (hjq : j < q) (hlo : lo ≤ j) (hhi : e ≤ hi)
    (hgreater : ∀ x, j < x → x < q → a < v x) (hparked : ∀ x, q ≤ x → x ≤ e → v x = a) (hge : a ≤ v j) :
    ∃ w q', park lo hi v a j (q - 1) q = some (w, q') ∧ Permuted v w j (q - 1) ∧
      j ≤ q' ∧ q' ≤ q ∧ (∀ x, j ≤ x → x < q' → a < w x) ∧ (∀ x, q' ≤ x → x ≤ e → w x = a) ∧
      (v j = a → q' = q - 1) := by
  unfold park
  by_cases heq : v j = a
  · rw [if_pos heq, exchange_eq (by omega) (by omega), map_some]
    refine ⟨_, _, rfl, Permuted.swapAt v (by omega) (by omega), by omega, by omega,
      fun x hx hx' => ?_, fun x hx hx' => ?_, fun _ => rfl⟩
    · by_cases hfirst : x = j
      · rw [hfirst, swapAt_right]
        exact hgreater (q - 1) (by omega) (by omega)
      · rw [swapAt_other v (by omega) hfirst]
        exact hgreater x (by omega) (by omega)
    · by_cases hfirst : x = q - 1
      · rw [hfirst, swapAt_left, heq]
      · rw [swapAt_other v hfirst (by omega)]
        exact hparked x (by omega) hx'
  · rw [if_neg heq]
    refine ⟨_, _, rfl, Permuted.refl v j (q - 1), hjq.le, le_rfl, fun x hx hx' => ?_, hparked,
      fun h => absurd h heq⟩
    by_cases hfirst : x = j
    · rw [hfirst]
      exact lt_of_le_of_ne hge (Ne.symm heq)
    · exact hgreater x (by omega) hx'

/-- **A round that goes on** keeps the invariant. -/
theorem PartsAt.again (h : PartsAt u a b e s) (hs : Scanned a s i j) (hij : i < j) (hlo : lo ≤ b)
    (hhi : e ≤ hi) : ∃ v l r, exchange lo hi s.v i j = some v ∧
      park lo hi v a i (s.p + 1) s.p = some l ∧ park lo hi l.1 a j (s.q - 1) s.q = some r ∧
      PartsAt u a b e { v := r.1, i := i, j := j, p := l.2, q := r.2 } := by
  obtain ⟨hsi, hisj, hj, hj', hbelow, hge, habove, hdown, -⟩ := hs
  have hle := hdown hij
  have hp := h.p_lower
  have hpi := h.p_le_i
  have hjq := h.j_le_q
  have hqe := h.q_upper
  have hswapi : swapAt s.v i j i = s.v j := swapAt_left s.v i j
  have hswapj : swapAt s.v i j j = s.v i := swapAt_right s.v i j
  have hother : ∀ x, x ≠ i → x ≠ j → swapAt s.v i j x = s.v x := fun x hx hx' =>
    swapAt_other s.v hx hx'
  obtain ⟨w, p', hleft, hpermw, hpp', hp'i, hparkedw, hsmallerw⟩ := park_left
    (v := swapAt s.v i j) (a := a) hp (by omega : s.p < i) hlo (by omega : i ≤ hi)
    (fun x hx hx' => by
      rw [hother x (by omega) (by omega)]
      exact h.parked_left x hx hx')
    (fun x hx hx' => by
      rw [hother x (by omega) (by omega)]
      by_cases hold : x ≤ s.i
      · exact h.smaller x hx hold
      · exact hbelow x (by omega) hx')
    (by rw [hswapi]; exact hle)
  -- parking on the left does not reach `j`
  have hwj : w j = s.v i := (hpermw.outside (by omega)).trans hswapj
  have hwother : ∀ x, i < x → x ≠ j → w x = s.v x := fun x hx hx' =>
    (hpermw.outside (by omega)).trans (hother x (by omega) hx')
  obtain ⟨w', q', hright, hpermw', hjq', hq'q, hgreaterw, hparkedw', hlast⟩ := park_right
    (v := w) (a := a) hqe (by omega : j < s.q) (by omega : lo ≤ j) hhi
    (fun x hx hx' => by
      rw [hwother x (by omega) (by omega)]
      by_cases hold : x < s.j
      · exact habove x hx hold (by omega)
      · exact h.greater x (by omega) hx')
    (fun x hx hx' => by
      rw [hwother x (by omega) (by omega)]
      exact h.parked_right x hx hx')
    (by rw [hwj]; exact hge)
  refine ⟨_, (w, p'), (w', q'), exchange_eq (by omega) (by omega), hleft, hright, ?_⟩
  have hleftw : ∀ x, x < j → w' x = w x := fun x hx => hpermw'.outside (by omega)
  refine ⟨?_, by dsimp only; omega, hp'i, hij, by dsimp only; omega, hjq', by dsimp only; omega,
    fun x hx hx' => ?_, fun x hx hx' => ?_, fun x hx hx' => ?_, hgreaterw, hparkedw', fun hnone => ?_⟩
  · -- three swaps, all inside of the range
    exact ((h.perm.trans (Permuted.swapAt s.v (by omega) (by omega))).trans
      (hpermw.mono le_rfl (by omega))).trans (hpermw'.mono (by omega) (by omega))
  · -- parking on the right does not reach what is in front of `j`
    dsimp only at hx' ⊢
    rw [hleftw x (by omega)]
    exact hparkedw x hx hx'
  · dsimp only at hx hx' ⊢
    rw [hleftw x (by omega)]
    exact hsmallerw x hx hx'
  · dsimp only at hx hx' ⊢
    rw [hleftw x hx', hwother x hx (by omega)]
    exact h.rest x (by omega) (by omega)
  · -- without greater elements `v[i]` is the pivot, and is parked on the right
    obtain ⟨hjq₀, hcount⟩ := h.none_greater hnone
    have heq : s.v i = a := by
      refine le_antisymm ?_ hge
      rw [h.rest i hsi (by omega)]
      exact hnone i (by omega) (by omega)
    have hnext : j = s.j - 1 := by
      by_contra hbad
      have hgt := habove (s.j - 1) (by omega) (by omega) (by omega)
      rw [h.rest (s.j - 1) (by omega) (by omega)] at hgt
      exact absurd hgt (not_lt.mpr (hnone (s.j - 1) (by omega) (by omega)))
    have hq' := hlast (hwj.trans heq)
    have hbetween : occurs u b (i - 1) a = occurs u b s.i a :=
      occurs_between (by omega) fun z hz hz' => by
        rw [← h.rest z hz (by omega)]
        exact ne_of_lt (hbelow z hz (by omega))
    dsimp only
    rw [occurs_succ (by omega) (by rw [← h.rest i hsi (by omega)]; exact heq), hbetween]
    omega

/-- **THE PARTITION ENDS**, within as many rounds as there are elements. -/
theorem partsRounds_spec (u : ℤ → A) (hbe : b < e) (hlo : lo ≤ b) (hhi : e ≤ hi) :
    ∃ s, loop (partsRound lo hi (u e)) ((e - b).toNat + 1)
        { v := u, i := b - 1, j := e, p := b - 1, q := e } = some s ∧ Parked u (u e) b e s := by
  have hround : ∀ s : Parts A, PartsAt u (u e) b e s →
      (∃ s', partsRound lo hi (u e) s = some (.again s') ∧ PartsAt u (u e) b e s' ∧
        (s'.j - s'.i - 1).toNat < (s.j - s.i - 1).toNat) ∨
      ∃ r, partsRound lo hi (u e) s = some (.done r) ∧ Parked u (u e) b e r := by
    intro s h
    obtain ⟨i, j, hup, hdown, hs⟩ := h.scans hlo hhi
    unfold partsRound
    rw [hup, bind_some, hdown, bind_some]
    by_cases hmeet : i ≥ j
    · rw [if_pos hmeet]
      exact Or.inr ⟨_, rfl, h.done hs hmeet⟩
    obtain ⟨v, l, r, hswap, hleft, hright, hagain⟩ := h.again hs (not_le.mp hmeet) hlo hhi
    have hi := hs.i_lower
    have hj := hs.j_upper
    rw [if_neg hmeet, hswap, bind_some, hleft, bind_some, hright, map_some]
    exact Or.inl ⟨_, rfl, hagain, by dsimp only; omega⟩
  exact loop_ends (fun s : Parts A => (s.j - s.i - 1).toNat) hround _ (PartsAt.start u hbe)
    (by dsimp only; omega)

end Parts

/-! ## §5. The three parts. -/

/-- Some element stays behind the pivots: `i` does not get beyond `lEnd`. -/
def RightRoom (u : ℤ → A) (b e : ℤ) : Prop :=
  (∃ x, b ≤ x ∧ x < e ∧ u e < u x) ∨
    ∃ x, b ≤ x ∧ x < e ∧ u x = u e ∧ (occurs u b x (u e) : ℤ) = e - x

/-- The range has an element that is less than the pivot. -/
def HasSmaller (u : ℤ → A) (b e : ℤ) : Prop := ∃ x, b ≤ x ∧ x ≤ e ∧ u x < u e

/-- **What the partition hands on**: the left part ends at `jl`, the right one
    begins at `ir`. -/
structure PartedAt (u w : ℤ → A) (b e jl ir : ℤ) : Prop where
  perm : Permuted u w (min b 1) e
  jl_lt_ir : jl < ir
  jl_lt_e : jl < e
  b_lt_ir : b < ir
  ir_le : ir ≤ e + 1
  left : ∀ x, b ≤ x → x ≤ jl → w x ≤ u e
  right : ∀ x, ir ≤ x → x ≤ e → u e ≤ w x
  right_lt : ∀ x, ir ≤ x → x < e → u e < w x
  /-- a range that begins at 0 or 1 -/
  middle : b ≤ 1 → ∀ x, b ≤ x → jl < x → x < ir → w x = u e
  /-- a range further up, without smaller elements -/
  none_smaller : 2 ≤ b → ¬ HasSmaller u b e →
    jl = 0 ∧ Permuted u w b e ∧ ∀ x, b ≤ x → x < ir → w x = u e
  /-- a range further up, with smaller elements: they are in the left part, and
      one of them at 1 -/
  some_smaller : 2 ≤ b → HasSmaller u b e →
    ∀ x, (b ≤ x ∧ x ≤ jl) ∨ x = 1 → ∃ y, b ≤ y ∧ y < e ∧ w x = u y

section Finish

variable {lo hi b e : ℤ} {u : ℤ → A} {s : Parts A}

/-- The array after the two swaps back. -/
def finished (s : Parts A) (e : ℤ) : ℤ → A :=
  mirror (e - s.q).toNat (s.i + 1) (e - 1) (mirror s.p.toNat 1 (s.i - 1) (swapAt s.v s.i e))

variable {a : A} {x : ℤ}

section

variable (h : Parked u a b e s)
include h

/-- What stands in front of the middle. -/
theorem finished_left {z : ℤ} (hz : z < s.i) : finished s e z = if (1 ≤ z ∧ z < 1 + (s.p.toNat : ℤ)) ↔
        (s.i - 1 - (s.p.toNat : ℤ) < z ∧ z ≤ s.i - 1) then s.v z else s.v (s.i - z) := by
  have hpi := h.p_lt_i
  have hiq := h.i_le_q
  have hqe := h.q_upper
  have hswap : ∀ x, x < s.i → swapAt s.v s.i e x = s.v x := fun x hx =>
    swapAt_other s.v (by omega) (by omega)
  unfold finished
  rw [mirror, if_pos (by omega), mirror, show 1 + (s.i - 1) - z = s.i - z by omega]
  split
  next => exact hswap z hz
  next => exact hswap (s.i - z) (by omega)

/-- What stands behind it, and there. -/
theorem finished_right {z : ℤ} (hz : s.i ≤ z) :
    finished s e z = if (s.i + 1 ≤ z ∧ z ≤ s.i + (e - s.q)) ↔ (s.q ≤ z ∧ z ≤ e - 1) then
      swapAt s.v s.i e z else swapAt s.v s.i e (s.i + e - z) := by
  have hpi := h.p_lt_i
  have hiq := h.i_le_q
  have hfirst : ∀ x, s.i ≤ x →
      mirror s.p.toNat 1 (s.i - 1) (swapAt s.v s.i e) x = swapAt s.v s.i e x := fun x hx =>
    if_pos (by omega)
  unfold finished
  rw [mirror, show s.i + 1 + (e - 1) - z = s.i + e - z by omega]
  have hiff : ((s.i + 1 ≤ z ∧ z < s.i + 1 + ((e - s.q).toNat : ℤ)) ↔
      (e - 1 - ((e - s.q).toNat : ℤ) < z ∧ z ≤ e - 1)) ↔
      ((s.i + 1 ≤ z ∧ z ≤ s.i + (e - s.q)) ↔ (s.q ≤ z ∧ z ≤ e - 1)) := by
    constructor <;> intro h <;> constructor <;> omega
  by_cases hin : (s.i + 1 ≤ z ∧ z ≤ s.i + (e - s.q)) ↔ (s.q ≤ z ∧ z ≤ e - 1)
  · rw [if_pos hin, if_pos (hiff.mpr hin)]
    exact hfirst z hz
  · rw [if_neg hin, if_neg (fun h => hin (hiff.mp h))]
    exact hfirst (s.i + e - z) (by omega)

theorem finished_swap : swapAt s.v s.i e s.i = a ∧ swapAt s.v s.i e e = s.v s.i ∧
      ∀ x, s.i < x → x < e → swapAt s.v s.i e x = s.v x := by
  refine ⟨?_, swapAt_right s.v s.i e, fun x hx hx' => swapAt_other s.v (by omega) (by omega)⟩
  rw [swapAt_left]
  exact h.parked_right e h.q_upper le_rfl

theorem finished_left_part (hb : 0 ≤ b) (hx : b ≤ x) (hx' : x ≤ s.i - 1 - s.p.toNat) :
    (∃ y, s.p < y ∧ y < s.i ∧ finished s e x = s.v y) ∨ b = 0 ∧ finished s e x = a := by
  rw [finished_left h (by omega)]
  by_cases hmir : 1 ≤ x ∧ x < 1 + (s.p.toNat : ℤ)
  · -- it has come from the other side
    rw [if_neg (by omega)]
    exact Or.inl ⟨s.i - x, by omega, by omega, rfl⟩
  rw [if_pos (by omega)]
  by_cases hparked : x ≤ s.p
  · -- the swaps begin at 1: only 0 can be left out
    exact Or.inr ⟨by omega, h.parked_left x hx hparked⟩
  · exact Or.inl ⟨x, by omega, by omega, rfl⟩

theorem finished_middle_left (hb : 0 ≤ b) (hb' : b ≤ 1) (hx : s.i - 1 - s.p.toNat < x) (hx' : x < s.i) :
    finished s e x = a := by
  rw [finished_left h hx']
  by_cases hmir : 1 ≤ x ∧ x < 1 + (s.p.toNat : ℤ)
  · rw [if_pos (by omega)]
    exact h.parked_left x (by omega) (by omega)
  · rw [if_neg (by omega)]
    exact h.parked_left (s.i - x) (by omega) (by omega)

/-- And from `i` on. -/
theorem finished_middle_right (hx : s.i ≤ x) (hx' : x ≤ s.i + (e - s.q)) : finished s e x = a := by
  have hiq := h.i_le_q
  obtain ⟨hi, he, hother⟩ := finished_swap h
  -- what stands at a position from `q` on
  have hparked : ∀ y, s.q ≤ y → y < e → swapAt s.v s.i e y = a := by
    intro y hy hy'
    by_cases hyi : y = s.i
    · rw [hyi]
      exact hi
    · rw [hother y (by omega) hy']
      exact h.parked_right y hy hy'.le
  rw [finished_right h hx]
  by_cases hfirst : x = s.i
  · by_cases hall : s.q ≤ x ∧ x ≤ e - 1
    · -- `i` is one of the parked positions itself
      rw [if_neg (by omega), hfirst, show s.i + e - s.i = e by omega, he]
      exact h.parked_right s.i (by omega) (by omega)
    · rw [if_pos (by omega), hfirst]
      exact hi
  by_cases hboth : s.q ≤ x ∧ x ≤ e - 1
  · -- the parked elements overlap with where they go
    rw [if_pos (by omega)]
    exact hparked x hboth.1 (by omega)
  · rw [if_neg (by omega)]
    exact hparked (s.i + e - x) (by omega) (by omega)

/-- The greater elements behind the pivots. -/
theorem finished_right_part (hx : s.i + 1 + (e - s.q) ≤ x) (hx' : x ≤ e) :
    (∃ y, s.i < y ∧ y < s.q ∧ finished s e x = s.v y) ∨ x = e ∧ finished s e x = s.v s.i := by
  have hqe := h.q_upper
  obtain ⟨-, he, hother⟩ := finished_swap h
  rw [finished_right h (by omega)]
  by_cases hlast : x = e
  · rw [if_pos (by omega), hlast]
    exact Or.inr ⟨rfl, he⟩
  by_cases hmir : s.q ≤ x
  · rw [if_neg (by omega), hother (s.i + e - x) (by omega) (by omega)]
    exact Or.inl ⟨s.i + e - x, by omega, by omega, rfl⟩
  · rw [if_pos (by omega), hother x (by omega) (by omega)]
    exact Or.inl ⟨x, by omega, by omega, rfl⟩

/-- Without smaller elements nothing leaves the range. -/
theorem finished_none_smaller (hb : 1 ≤ b) (hnone : s.p = s.i - 1) : Permuted u (finished s e) b e := by
  have hiq := h.i_le_q
  have hqe := h.q_upper
  have hbi := h.b_le_i
  have hid : mirror s.p.toNat 1 (s.i - 1) (swapAt s.v s.i e) = swapAt s.v s.i e := by
    funext z
    exact if_pos (by omega)
  unfold finished
  rw [hid]
  exact ((h.perm.mono le_rfl (by omega)).trans (Permuted.swapAt s.v ⟨hbi, by omega⟩
    ⟨by omega, le_rfl⟩)).trans (mirror_permuted _ _ (by omega))

/-- **A PARTITION REARRANGES** its range. -/
theorem finished_permuted (hb : 0 ≤ b) : Permuted u (finished s e) (min b 1) e := by
  have hpi := h.p_lt_i
  have hiq := h.i_le_q
  have hqe := h.q_upper
  have hbi := h.b_le_i
  exact (((h.perm.mono (by omega) (by omega)).trans (Permuted.swapAt s.v ⟨by omega, by omega⟩
    ⟨by omega, le_rfl⟩)).trans (mirror_permuted _ _ (by omega))).trans (mirror_permuted _ _ (by omega))

end

/-- **THE THREE PARTS.** -/
theorem partedAt_finished (h : Parked u (u e) b e s) (hb : 0 ≤ b) :
    PartedAt u (finished s e) b e (s.i - 1 - s.p.toNat) (s.i + 1 + (e - s.q)) := by
  have hp := h.p_lower
  have hpi := h.p_lt_i
  have hiq := h.i_le_q
  have hqe := h.q_upper
  -- the smaller elements are elements of the range
  have hinside : ∀ y, s.p < y → y < s.i → ∃ z, b ≤ z ∧ z < e ∧ s.v y = u z := by
    intro y hy hy'
    obtain ⟨z, hz, heq⟩ := h.perm.inside (i := y) ⟨by omega, by omega⟩
    exact ⟨z, hz.1, by omega, heq⟩
  have hright : ∀ x, s.i + 1 + (e - s.q) ≤ x → x ≤ e → u e ≤ finished s e x := by
    intro x hx hx'
    obtain ⟨y, hy, hy', heq⟩ | ⟨-, heq⟩ := finished_right_part h hx hx'
    · rw [heq]
      exact (h.greater y hy hy').le
    · rw [heq]
      exact h.stop
  refine ⟨finished_permuted h hb, by omega, by omega, by omega, by omega, fun x hx hx' => ?_, hright,
    fun x hx hx' => ?_, fun hb' x hx hx' hx'' => ?_, fun hb' hnone => ?_, fun hb' hsome x hx => ?_⟩
  · -- the left part
    obtain ⟨y, hy, hy', heq⟩ | ⟨-, heq⟩ := finished_left_part h hb hx hx'
    · rw [heq]
      exact (h.smaller y hy hy').le
    · exact heq.le
  · -- the right part, in front of the last position
    obtain ⟨y, hy, hy', heq⟩ | ⟨heq, -⟩ := finished_right_part h hx hx'.le
    · rw [heq]
      exact h.greater y hy hy'
    · omega
  · -- the pivots, on both sides of `i`
    by_cases hside : x < s.i
    · exact finished_middle_left h hb hb' hx' hside
    · exact finished_middle_right h (by omega) (by omega)
  · -- everything in front of `i` is parked
    have hp' : s.p = s.i - 1 := by
      by_contra hbad
      have hlt := h.smaller (s.p + 1) (by omega) (by omega)
      obtain ⟨z, hz, hz', heq⟩ := hinside (s.p + 1) (by omega) (by omega)
      rw [heq] at hlt
      exact hnone ⟨z, hz, hz'.le, hlt⟩
    refine ⟨by omega, finished_none_smaller h (by omega) hp', fun x hx hx' => ?_⟩
    by_cases hside : x < s.i
    · rw [finished_left h hside, if_pos (by omega)]
      exact h.parked_left x hx (by omega)
    · exact finished_middle_right h (by omega) (by omega)
  · obtain ⟨z, hz, hz', hlt⟩ := hsome
    have hze : z ≠ e := fun heq => by rw [heq] at hlt; exact lt_irrefl _ hlt
    -- one of them is between the parked elements and `i`
    have hless : s.p < s.i - 1 := by
      obtain ⟨y, hy, heq⟩ := h.perm.symm.inside (i := z) ⟨hz, by omega⟩
      rw [heq] at hlt
      by_contra hbad
      by_cases hyp : y ≤ s.p
      · rw [h.parked_left y hy.1 hyp] at hlt
        exact lt_irrefl _ hlt
      by_cases hyi : y = s.i
      · rw [hyi] at hlt
        exact absurd hlt (not_lt.mpr h.stop)
      by_cases hyq : y < s.q
      · exact absurd hlt (not_lt.mpr (h.greater y (by omega) hyq).le)
      · rw [h.parked_right y (by omega) (by omega)] at hlt
        exact lt_irrefl _ hlt
    obtain ⟨hx, hx'⟩ | rfl := hx
    · obtain ⟨y, hy, hy', heq⟩ | ⟨hzero, -⟩ := finished_left_part h hb hx hx'
      · rw [heq]
        exact hinside y hy hy'
      · omega
    · -- the first swap back is the one of 1 and `i-1`
      rw [finished_left h (by omega), if_neg (by omega)]
      exact hinside (s.i - 1) (by omega) (by omega)

/-- `i` gets beyond the range if and only if nothing stays behind the pivots. -/
theorem parked_room (h : Parked u (u e) b e s) : s.i < s.q ↔ RightRoom u b e := by
  by_cases hgreater : ∃ x, b ≤ x ∧ x < e ∧ u e < u x
  · refine iff_of_true ?_ (Or.inl hgreater)
    -- a greater element is neither parked nor in front of `i`
    obtain ⟨x, hx, hx', hlt⟩ := hgreater
    obtain ⟨y, hy, heq⟩ := h.perm.symm.inside (i := x) ⟨hx, by omega⟩
    rw [heq] at hlt
    by_contra hbad
    by_cases hyp : y ≤ s.p
    · rw [h.parked_left y hy.1 hyp] at hlt
      exact lt_irrefl _ hlt
    by_cases hyi : y < s.i
    · exact absurd hlt (not_lt.mpr (h.smaller y (by omega) hyi).le)
    · rw [h.parked_right y (by omega) (by omega)] at hlt
      exact lt_irrefl _ hlt
  · have hnone : ∀ x, b ≤ x → x < e → u x ≤ u e := fun x hx hx' =>
      not_lt.mp fun hlt => hgreater ⟨x, hx, hx', hlt⟩
    rw [h.none_greater hnone]
    exact ⟨Or.inr, fun h => h.resolve_left hgreater⟩

/-- **THE PARTITION** returns the three parts, if `i` does not overflow. -/
theorem partition3_spec (u : ℤ → A) (hb : 0 ≤ b) (hbe : b < e) (he : e ≤ INT32_MAX) (hlo : lo ≤ b)
    (hlo' : lo ≤ 1) (hhi : e ≤ hi) : ((e < INT32_MAX ∨ RightRoom u b e) ∧
      ∃ w jl ir, partition3 lo hi u b e = some (w, jl, ir) ∧ PartedAt u w b e jl ir) ∨
    ¬ (e < INT32_MAX ∨ RightRoom u b e) ∧ partition3 lo hi u b e = none := by
  obtain ⟨s, hloop, h⟩ := partsRounds_spec u hbe hlo hhi
  have hpi := h.p_lt_i
  have hiq := h.i_le_q
  have hqe := h.q_upper
  have hbi := h.b_le_i
  have hroom := parked_room h
  unfold partition3
  rw [peek_eq (by omega) hhi, bind_some, hloop, bind_some,
    exchange_eq ⟨by omega, by omega⟩ ⟨by omega, hhi⟩, bind_some]
  by_cases hfits : s.i + 1 + (e - s.q) ≤ INT32_MAX
  · have hint : int32 (s.i + 1) = some (s.i + 1) := int32_of_le (by omega) (by omega)
    have hn : ((e - s.q).toNat : ℤ) = e - s.q := Int.toNat_of_nonneg (by omega)
    have hint' : int32 (s.i + 1 + ((e - s.q).toNat : ℤ)) = some (s.i + 1 + (e - s.q)) := by
      rw [hn]
      exact int32_of_le (by omega) hfits
    rw [hint, bind_some, swapBack_eq _ _ (by omega), bind_some,
      swapBack_eq _ _ (by omega), bind_some, hint', map_some]
    refine Or.inl ⟨?_, _, _, _, rfl, partedAt_finished h hb⟩
    rw [← hroom]
    omega
  have hnot : ¬ (e < INT32_MAX ∨ RightRoom u b e) := by
    rw [← hroom]
    omega
  refine Or.inr ⟨hnot, ?_⟩
  -- it is the first `i++` that overflows, or the last one
  by_cases hfirst : s.i + 1 ≤ INT32_MAX
  · have hint : int32 (s.i + 1) = some (s.i + 1) := int32_of_le (by omega) hfirst
    have hint' : int32 (s.i + 1 + ((e - s.q).toNat : ℤ)) = none := by
      rw [Int.toNat_of_nonneg (by omega : 0 ≤ e - s.q)]
      exact int32_of_gt (not_le.mp hfits)
    rw [hint, bind_some, swapBack_eq _ _ (by omega), bind_some,
      swapBack_eq _ _ (by omega), bind_some, hint']
    rfl
  · have hint : int32 (s.i + 1) = none := int32_of_gt (not_le.mp hfirst)
    rw [hint]
    rfl

/-- Further up the swaps back reach outside of the range. -/
theorem partition3_outside (u : ℤ → A) (hbe : b < e) (hlo : 2 ≤ lo) (hlo' : lo ≤ b) (hhi : e ≤ hi) :
    partition3 lo hi u b e = none := by
  obtain ⟨s, hloop, h⟩ := partsRounds_spec u hbe hlo' hhi
  have hp := h.p_lower
  have hbi := h.b_le_i
  have hiq := h.i_le_q
  have hqe := h.q_upper
  unfold partition3
  rw [peek_eq (by omega) hhi, bind_some, hloop, bind_some,
    exchange_eq ⟨by omega, by omega⟩ ⟨by omega, hhi⟩, bind_some]
  cases int32 (s.i + 1) with
  | none => rfl
  | some i =>
    rw [bind_some, swapBack_outside _ (by omega) (by omega)]
    rfl

end Finish

/-! ## §6. The calls. -/

/-- The work of a call, with the ranges that it calls the function for. -/
def quick3Work (lo hi : ℤ) (R : ℤ × ℤ) (v : ℤ → A) : Option ((ℤ → A) × List (ℤ × ℤ)) :=
  if R.2 ≤ R.1 then some (v, [])
  else (partition3 lo hi v R.1 R.2).map fun r => (r.1, [(R.1, r.2.1), (r.2.2, R.2)])

/-- A call for a range that begins at 2 or further up, and has an element that is
    less than its pivot. -/
def BadCall (R : ℤ × ℤ) (v : ℤ → A) : Prop := 2 ≤ R.1 ∧ R.1 < R.2 ∧ HasSmaller v R.1 R.2

/-- `i` gets beyond the greatest `int32_t`. -/
def Overflows (R : ℤ × ℤ) (v : ℤ → A) : Prop :=
  R.1 < R.2 ∧ ¬ (R.2 < INT32_MAX ∨ RightRoom v R.1 R.2)

section Calls

variable {lo hi : ℤ} {v w v₂ v' : ℤ → A} {b e jl ir : ℤ}

/-- It is a recursion over its calls. -/
theorem Q_Quick_Sort_3_eq (fuel : ℕ) : ∀ (v : ℤ → A) (b e : ℤ),
    Q_Quick_Sort_3 lo hi fuel v b e = recur (quick3Work lo hi) fuel (b, e) v := by
  induction fuel with
  | zero => exact fun _ _ _ => rfl
  | succ fuel ih =>
    intro v b e
    rw [Q_Quick_Sort_3, recur, quick3Work]
    by_cases hle : e ≤ b
    · rw [if_pos hle, if_pos hle]
      rfl
    rw [if_neg hle, if_neg hle]
    cases partition3 lo hi v b e with
    | none => rfl
    | some r =>
      show (Q_Quick_Sort_3 lo hi fuel r.1 b r.2.1).bind _ = inTurn _ [_, _] r.1
      rw [ih]
      refine congrArg (Option.bind _) (funext fun v => ?_)
      rw [ih]
      exact (bind_fun_some _).symm

/-- The calls of a sort whose range begins at 0 or 1. -/
structure Within (lo hi : ℤ) (R : ℤ × ℤ) : Prop where
  lower : lo ≤ R.1
  upper : R.2 ≤ hi

variable {R : ℤ × ℤ}

/-- What a call does, or that it cannot. -/
theorem quick3Work_cases (hlo : 0 ≤ lo) (hlo' : lo ≤ 1) (hhi : hi ≤ INT32_MAX) (hR : Within lo hi R)
    (v : ℤ → A) : (R.2 ≤ R.1 ∧ quick3Work lo hi R v = some (v, [])) ∨
    (R.1 < R.2 ∧ ¬ Overflows R v ∧ ∃ w jl ir, quick3Work lo hi R v = some (w, [(R.1, jl), (ir, R.2)]) ∧
      PartedAt v w R.1 R.2 jl ir) ∨
    Overflows R v ∧ quick3Work lo hi R v = none := by
  have hlower := hR.lower
  have hupper := hR.upper
  unfold quick3Work
  by_cases hle : R.2 ≤ R.1
  · rw [if_pos hle]
    exact Or.inl ⟨hle, rfl⟩
  rw [if_neg hle]
  obtain ⟨hok, w, jl, ir, hrun, hparted⟩ | ⟨hbad, hrun⟩ := partition3_spec v
    (by omega : 0 ≤ R.1) (not_le.mp hle) (by omega) hlower hlo' hupper
  · rw [hrun]
    exact Or.inr (Or.inl ⟨not_le.mp hle, fun h => h.2 hok, w, jl, ir, rfl, hparted⟩)
  · rw [hrun]
    exact Or.inr (Or.inr ⟨⟨not_le.mp hle, hbad⟩, rfl⟩)

theorem quick3Work_sub (hlo : 0 ≤ lo) (hlo' : lo ≤ 1) (hhi : hi ≤ INT32_MAX) (R : ℤ × ℤ) (v : ℤ → A)
    (x : (ℤ → A) × List (ℤ × ℤ)) (hR : Within lo hi R) (h : quick3Work lo hi R v = some x) :
    ∀ S ∈ x.2, Within lo hi S ∧ (S.2 - S.1).toNat < (R.2 - R.1).toNat := by
  have hlower := hR.lower
  have hupper := hR.upper
  obtain ⟨-, hrun⟩ | ⟨hlt, -, w, jl, ir, hrun, hparted⟩ | ⟨-, hrun⟩ := quick3Work_cases hlo hlo' hhi hR v
  · obtain rfl := Option.some.inj (hrun.symm.trans h)
    exact fun S hS => absurd hS List.not_mem_nil
  · obtain rfl := Option.some.inj (hrun.symm.trans h)
    have hjl := hparted.jl_lt_e
    have hir := hparted.b_lt_ir
    rw [List.forall_mem_cons, List.forall_mem_singleton]
    refine ⟨⟨⟨hlower, by dsimp only; omega⟩, by dsimp only; omega⟩, ⟨by dsimp only; omega, hupper⟩, ?_⟩
    omega
  · rw [hrun] at h
    cases h

/-- **What a call does** to the array, where `bad` says that it comes to a bad call. -/
structure Contract (R : ℤ × ℤ) (v v' : ℤ → A) (bad : Prop) : Prop where
  perm : Permuted v v' (min R.1 1) R.2
  low : R.1 ≤ 1 → (SortedOn v' R.1 R.2 ↔ ¬ bad)
  high : 2 ≤ R.1 → ¬ bad → Permuted v v' R.1 R.2 ∧ SortedOn v' R.1 R.2
  /-- from then on a greater element stands at 1 -/
  damage : 2 ≤ R.1 → ∀ x, (∀ i, R.1 ≤ i → i ≤ R.2 → x ≤ v i) → (∀ i, R.1 ≤ i → i < R.2 → x < v i) →
    x < v 1 ∨ bad → x < v' 1

theorem Contract.of_le (h : R.2 ≤ R.1) (v : ℤ → A) {bad : Prop} (hbad : ¬ bad) :
    Contract R v v bad where
  perm := Permuted.refl v _ _
  low _ := iff_of_true (SortedOn.of_le h) hbad
  high _ _ := ⟨Permuted.refl v _ _, SortedOn.of_le h⟩
  damage _ _ _ _ hx := hx.resolve_right hbad

section Step

variable {badLeft badRight : Prop}

/-- **The elements from `ir` on** are as the partition has left them, when the left
    call has returned. -/
theorem right_untouched (hp : PartedAt v w b e jl ir) (hl : Contract (b, jl) w v₂ badLeft) {x : ℤ}
    (hx : ir ≤ x) : v₂ x = w x := by
  have hlt := hp.jl_lt_ir
  exact hl.perm.outside (Or.inr (by dsimp only; omega))

theorem Contract.step_perm (hp : PartedAt v w b e jl ir) (hl : Contract (b, jl) w v₂ badLeft)
    (hr : Contract (ir, e) v₂ v' badRight) : Permuted v v' (min b 1) e := by
  have hjl := hp.jl_lt_e
  have hir := hp.b_lt_ir
  exact (hp.perm.trans (hl.perm.mono le_rfl (by dsimp only; omega))).trans
    (hr.perm.mono (by dsimp only; omega) le_rfl)

/-- **A range that begins at 0 or 1** is sorted, unless one of the calls is bad. -/
theorem Contract.step_low (hb : b ≤ 1) (hp : PartedAt v w b e jl ir)
    (hl : Contract (b, jl) w v₂ badLeft) (hr : Contract (ir, e) v₂ v' badRight) :
    SortedOn v' b e ↔ ¬ (badLeft ∨ badRight) := by
  have hjlir := hp.jl_lt_ir
  have hjle := hp.jl_lt_e
  have hbir := hp.b_lt_ir
  have hpl : Permuted w v₂ b jl := by
    have hperm := hl.perm
    rwa [min_eq_left hb] at hperm
  have hpr : ¬ badRight → Permuted v₂ v' ir e := by
    intro hgood
    by_cases hir : 2 ≤ ir
    · exact (hr.high hir hgood).1
    · have hperm := hr.perm
      rwa [min_eq_left (by omega : ir ≤ 1)] at hperm
  -- what the left call has left, up to the right part
  have hbelow : ∀ x, b ≤ x → x ≤ jl → v₂ x ≤ v e :=
    hpl.forall_inside (p := (· ≤ v e)) hp.left
  have hmiddle : ∀ x, b ≤ x → jl < x → x < ir → v₂ x = v e := by
    intro x hx hx' hx''
    rw [hpl.outside (by omega)]
    exact hp.middle hb x hx hx' hx''
  constructor
  · intro hs hbad
    have hgood : ¬ badRight := by
      intro hbadr
      by_cases hir : 2 ≤ ir
      · -- something greater than the pivot has got to 1
        have hlt : v e < v' 1 := by
          refine hr.damage hir (v e) (fun x hx hx' => ?_) (fun x hx hx' => ?_) (Or.inr hbadr)
          · rw [right_untouched hp hl hx]
            exact hp.right x hx hx'
          · rw [right_untouched hp hl hx]
            exact hp.right_lt x hx hx'
        have hperm : Permuted v₂ v' b e := hr.perm.mono (by dsimp only; omega) le_rfl
        have hs' : SortedOn (id ∘ v') b e := hs
        have hle : v' 1 ≤ v e := by
          refine hs'.first_le (r := ir) hperm hp.ir_le (fun x hx hx' => ?_) 1 hb
            (by omega)
          by_cases hxj : x ≤ jl
          · exact hbelow x hx hxj
          · exact (hmiddle x hx (by omega) hx').le
        exact absurd hlt (not_lt.mpr hle)
      · exact (hr.low (by dsimp only; omega)).mp (hs.mono hbir.le le_rfl) hbadr
    -- so the left call was bad, and its range is not sorted
    have hbadl := hbad.resolve_right hgood
    refine (hl.low hb).mp (fun i j hi hij hj => ?_) hbadl
    rw [← (hpr hgood).outside (i := i) (by omega), ← (hpr hgood).outside (i := j) (by omega)]
    exact hs i j hi hij (by omega)
  · intro hgood
    rw [not_or] at hgood
    have hsl : SortedOn v₂ b jl := (hl.low hb).mpr hgood.1
    have hsr : SortedOn v' ir e := by
      by_cases hir : 2 ≤ ir
      · exact (hr.high hir hgood.2).2
      · exact (hr.low (by dsimp only; omega)).mpr hgood.2
    have hperm := hpr hgood.2
    have hkeep : ∀ x, x < ir → v' x = v₂ x := fun x hx => hperm.outside (Or.inl hx)
    refine SortedOn.three (l := jl) (r := ir) ?_ hsr (?_ : ∀ i, b ≤ i → i ≤ jl → v' i ≤ v e) ?_ ?_
    · intro i j hi hij hj
      rw [hkeep i (by omega), hkeep j (by omega)]
      exact hsl i j hi hij hj
    · intro i hi hi'
      rw [hkeep i (by omega)]
      exact hbelow i hi hi'
    · intro i hi hi' hi''
      rw [hkeep i hi'']
      exact hmiddle i hi hi' hi''
    · refine hperm.forall_inside (p := (v e ≤ ·)) fun x hx hx' => ?_
      rw [right_untouched hp hl hx]
      exact hp.right x hx hx'

/-- **A range further up**, without smaller elements: nothing happens on the left. -/
theorem Contract.step_high (hb : 2 ≤ b) (hnone : ¬ HasSmaller v b e) (hp : PartedAt v w b e jl ir)
    (hl : Contract (b, jl) w v₂ badLeft) (hr : Contract (ir, e) v₂ v' badRight)
    (hgood : ¬ badRight) : Permuted v v' b e ∧ SortedOn v' b e := by
  have hbir := hp.b_lt_ir
  obtain ⟨rfl, hperm, hmiddle⟩ := hp.none_smaller hb hnone
  obtain ⟨hpr, hsr⟩ := hr.high (by dsimp only; omega) hgood
  have hkeep : ∀ x, v₂ x = w x := fun x => hl.perm.outside (by dsimp only; omega)
  obtain rfl : v₂ = w := funext hkeep
  refine ⟨hperm.trans (hpr.mono hbir.le le_rfl), ?_⟩
  have hnone : ∀ i, b ≤ i → i ≤ b - 1 → v' i ≤ v e := fun i hi hi' => by omega
  refine SortedOn.three (l := b - 1) (r := ir) (SortedOn.of_le (by omega)) hsr hnone (fun i hi _ hi'' => ?_) ?_
  · rw [hpr.outside (Or.inl hi'')]
    exact hmiddle i hi hi''
  · exact hpr.forall_inside (p := (v e ≤ ·)) fun x hx hx' => hp.right x hx hx'

/-- **The damage**: it is done where there are smaller elements, and stays. -/
theorem Contract.step_damage (hb : 2 ≤ b) (hbe : b < e) (hp : PartedAt v w b e jl ir)
    (hl : Contract (b, jl) w v₂ badLeft) (hr : Contract (ir, e) v₂ v' badRight) {x : A}
    (hge : ∀ i, b ≤ i → i ≤ e → x ≤ v i) (hgt : ∀ i, b ≤ i → i < e → x < v i)
    (hx : x < v 1 ∨ HasSmaller v b e ∨ badRight) : x < v' 1 := by
  have hbir := hp.b_lt_ir
  have hxe : x ≤ v e := hge e hbe.le le_rfl
  have hright : ∀ i, ir ≤ i → i ≤ e → x ≤ v₂ i := by
    intro i hi hi'
    rw [right_untouched hp hl hi]
    exact le_trans hxe (hp.right i hi hi')
  have hright' : ∀ i, ir ≤ i → i < e → x < v₂ i := by
    intro i hi hi'
    rw [right_untouched hp hl hi]
    exact lt_of_le_of_lt hxe (hp.right_lt i hi hi')
  by_cases hsome : HasSmaller v b e
  · -- a smaller element gets to 1, and the left call keeps it above `x`
    have hfrom : ∀ i, (b ≤ i ∧ i ≤ jl) ∨ i = 1 → x < w i := by
      intro i hi
      obtain ⟨y, hy, hy', heq⟩ := hp.some_smaller hb hsome i hi
      rw [heq]
      exact hgt y hy hy'
    have hone : x < v₂ 1 := hl.damage hb x (fun i hi hi' => (hfrom i (Or.inl ⟨hi, hi'⟩)).le)
      (fun i hi hi' => hfrom i (Or.inl ⟨hi, le_of_lt hi'⟩)) (Or.inl (hfrom 1 (Or.inr rfl)))
    exact hr.damage (by dsimp only; omega) x hright hright' (Or.inl hone)
  · obtain ⟨rfl, hperm, -⟩ := hp.none_smaller hb hsome
    have hkeep : v₂ 1 = v 1 :=
      (hl.perm.outside (by dsimp only; omega)).trans (hperm.outside (Or.inl (by omega)))
    refine hr.damage (by dsimp only; omega) x hright hright' ?_
    rw [hkeep]
    exact hx.imp_right fun h => h.resolve_left hsome

end Step

/-- **THE CONTRACT** of every call. -/
theorem quick3_contract (hlo : 0 ≤ lo) (hlo' : lo ≤ 1) (hhi : hi ≤ INT32_MAX) (fuel : ℕ) :
    ∀ {R : ℤ × ℤ} {v v' : ℤ → A}, Within lo hi R → recur (quick3Work lo hi) fuel R v = some v' →
      Contract R v v' (SomeCall (quick3Work lo hi) BadCall R v) := by
  induction fuel with
  | zero =>
    intro R v v' _ h
    cases h
  | succ fuel ih =>
    intro R v v' hR h
    obtain ⟨x, hwork, hsub⟩ := bind_eq_some_iff.mp h
    obtain ⟨hle, hrun⟩ | ⟨hlt, -, w, jl, ir, hrun, hp⟩ | ⟨-, hrun⟩ :=
      quick3Work_cases hlo hlo' hhi hR v
    · obtain rfl := Option.some.inj (hrun.symm.trans hwork)
      cases hsub
      refine Contract.of_le hle v ?_
      rw [someCall_nil hrun]
      exact fun hbad => absurd hbad.2.1 (not_lt.mpr hle)
    · obtain rfl := Option.some.inj (hrun.symm.trans hwork)
      obtain ⟨b, e⟩ := R
      obtain ⟨v₂, hleft, hrest⟩ := bind_eq_some_iff.mp hsub
      obtain ⟨v₃, hright, hend⟩ := bind_eq_some_iff.mp hrest
      cases hend
      have hsubs := quick3Work_sub hlo hlo' hhi (b, e) v _ hR hrun
      rw [List.forall_mem_cons, List.forall_mem_singleton] at hsubs
      have hl := ih hsubs.1.1 hleft
      have hr := ih hsubs.2.1 hright
      have hbad := someCall_two (Q := BadCall) hrun hleft
      refine ⟨hl.step_perm hp hr, fun hb => ?_, fun hb hgood => ?_, fun hb y hge hgt hy => ?_⟩
      · -- the call itself is not bad
        have hnot : ¬ BadCall (b, e) v := fun h => by
          have h2 := h.1
          omega
        rw [hbad, or_iff_right hnot]
        exact hl.step_low hb hp hr
      · rw [hbad, not_or, not_or] at hgood
        exact hl.step_high hb (fun h => hgood.1 ⟨hb, hlt, h⟩) hp hr hgood.2.2
      · refine hl.step_damage hb hlt hp hr hge hgt (hy.imp_right fun h => ?_)
        by_cases hsome : HasSmaller v b e
        · exact Or.inl hsome
        obtain hbad₀ | hbadl | hbadr := hbad.mp h
        · exact Or.inl hbad₀.2.2
        · -- the left call has no range
          obtain ⟨rfl, -, -⟩ := hp.none_smaller hb hsome
          have hnil : quick3Work lo hi (b, (0 : ℤ)) w = some (w, []) := if_pos (by
            omega)
          rw [someCall_nil hnil] at hbadl
          have hrange := hbadl.2.1
          omega
        · exact Or.inr hbadr
    · rw [hrun] at hwork
      cases hwork

end Calls

/-! ## §7. The sort. -/

/-- A call fits: its range begins at 0 or 1, or has no element that is less than
    its last one; and `i` does not overflow. -/
def CallFits (R : ℤ × ℤ) (v : ℤ → A) : Prop :=
  R.1 < R.2 → (2 ≤ R.1 → ¬ HasSmaller v R.1 R.2) ∧ (R.2 < INT32_MAX ∨ RightRoom v R.1 R.2)

/-- **All calls fit**, and the range of the sort begins at 0 or 1; or there is
    nothing to sort. -/
def Quick3Fits (v : ℤ → A) (lBegin lEnd : ℤ) : Prop :=
  lBegin = lEnd ∨ lBegin ≤ 1 ∧
    ∀ R w k, ComesTo (quick3Work lBegin lEnd) (lBegin, lEnd) v R w k → CallFits R w

/-- The sort keeps to its range and returns, and the range is sorted. -/
def Quick3Sorts (v : ℤ → A) (lBegin lEnd : ℤ) : Prop :=
  ∃ fuel v', Q_Quick_Sort_3 lBegin lEnd fuel v lBegin lEnd = some v' ∧
    Permuted v v' lBegin lEnd ∧ SortedOn v' lBegin lEnd

section Sorting

variable {lBegin lEnd : ℤ}

/-- A range that begins at 0 or 1. -/
theorem quick3Sorts_iff_low (v : ℤ → A) (hB : 0 ≤ lBegin) (hB' : lBegin ≤ 1) (hE : lEnd ≤ INT32_MAX) :
    Quick3Sorts v lBegin lEnd ↔
      ∀ R w k, ComesTo (quick3Work lBegin lEnd) (lBegin, lEnd) v R w k → CallFits R w := by
  have hstart : Within lBegin lEnd (lBegin, lEnd) := ⟨le_rfl, le_rfl⟩
  have hwithin : ∀ R w k, ComesTo (quick3Work lBegin lEnd) (lBegin, lEnd) v R w k →
      Within lBegin lEnd R := fun R w k hcall =>
    hcall.holds (fun R v x hR hwork S hS => (quick3Work_sub hB hB' hE R v x hR hwork S hS).1) hstart
  have hnone : ∀ {R : ℤ × ℤ} {w : ℤ → A}, Within lBegin lEnd R →
      (quick3Work lBegin lEnd R w ≠ none ↔ ¬ Overflows R w) := by
    intro R w hR
    obtain ⟨hle, hrun⟩ | ⟨-, hok, w', jl, ir, hrun, -⟩ | ⟨hbad, hrun⟩ :=
      quick3Work_cases hB hB' hE hR w
    · rw [hrun]
      exact iff_of_true nofun fun h => absurd h.1 (not_lt.mpr hle)
    · rw [hrun]
      exact iff_of_true nofun hok
    · rw [hrun]
      exact iff_of_false (fun h => h rfl) fun h => h hbad
  have hsplit : ∀ (R : ℤ × ℤ) (w : ℤ → A), ¬ Overflows R w ∧ ¬ BadCall R w ↔ CallFits R w := by
    intro R w
    constructor
    · intro h hlt
      exact ⟨fun h2 hsmaller => h.2 ⟨h2, hlt, hsmaller⟩, not_not.mp fun hroom => h.1 ⟨hlt, hroom⟩⟩
    · intro h
      exact ⟨fun hover => hover.2 (h hover.1).2, fun hbad => (h hbad.2.1).1 hbad.1 hbad.2.2⟩
  -- a call that overflows does not return, and a bad one spoils the range
  have hmeets := recur_meets_iff (G := fun v' => Permuted v v' lBegin lEnd ∧ SortedOn v' lBegin lEnd)
    (fun R => (R.2 - R.1).toNat) (quick3Work_sub hB hB' hE) hstart v (fun fuel v' hrun => by
      have hcontract := quick3_contract hB hB' hE fuel hstart hrun
      have hperm := hcontract.perm
      rw [min_eq_left hB'] at hperm
      exact (and_iff_right hperm).trans (hcontract.low hB'))
  unfold Quick3Sorts
  simp only [Q_Quick_Sort_3_eq]
  rw [hmeets]
  exact forall₄_congr fun R w k hcall =>
    (and_congr_left' (hnone (hwithin R w k hcall))).trans (hsplit R w)

/-- A range that begins further up: already the first call reaches outside of it. -/
theorem quick3Sorts_iff_high (v : ℤ → A) (hB : 2 ≤ lBegin) (hBE : lBegin ≤ lEnd) :
    Quick3Sorts v lBegin lEnd ↔ lBegin = lEnd := by
  constructor
  · intro h
    obtain ⟨fuel, v', hrun, -⟩ := h
    by_contra hne
    cases fuel with
    | zero => cases hrun
    | succ fuel =>
      rw [Q_Quick_Sort_3, if_neg (by omega), partition3_outside v (by omega) hB le_rfl le_rfl] at hrun
      cases hrun
  · intro heq
    refine ⟨1, v, ?_, Permuted.refl v _ _, SortedOn.of_le heq.ge⟩
    rw [Q_Quick_Sort_3, if_pos heq.ge]

/-- **THE QUICKSORT WITH THREE PARTS**, for every array and every range: it keeps to
    its range, returns and sorts if and only if the range begins at 0 or 1 and all
    calls fit, or it has one element. -/
theorem Q_Quick_Sort_3_sorts_iff (v : ℤ → A) (hB : 0 ≤ lBegin) (hBE : lBegin ≤ lEnd)
    (hE : lEnd ≤ INT32_MAX) : Quick3Sorts v lBegin lEnd ↔ Quick3Fits v lBegin lEnd := by
  by_cases hlow : lBegin ≤ 1
  · rw [quick3Sorts_iff_low v hB hlow hE]
    constructor
    · exact fun h => Or.inr ⟨hlow, h⟩
    · intro h R w k hcall
      obtain heq | ⟨-, hfits⟩ := h
      · -- one element: there is no other call
        have hnil : quick3Work lBegin lEnd (lBegin, lEnd) v = some (v, []) := if_pos heq.ge
        cases hcall with
        | here => exact fun hlt => absurd hlt (not_lt.mpr heq.ge)
        | inside hwork hsub =>
          obtain rfl := Option.some.inj (hnil.symm.trans hwork)
          exact absurd hsub.symm (List.append_ne_nil_of_right_ne_nil _ (List.cons_ne_nil _ _))
      · exact hfits R w k hcall
  · rw [quick3Sorts_iff_high v (by omega) hBE]
    exact ⟨Or.inl, fun h => h.resolve_right fun h => hlow h.1⟩

end Sorting

/-- A call that fits with room to spare. -/
def callFitsShort (R : ℤ × ℤ) (v : ℤ → ℕ) : Bool :=
  decide (R.2 < INT32_MAX ∧ (2 ≤ R.1 → ∀ x, R.1 ≤ x → x ≤ R.2 → ¬ v x < v R.2))

/-- What a run through the calls shows. -/
theorem quick3Fits_of_run {v v' : ℤ → ℕ} {lBegin lEnd : ℤ} (fuel : ℕ) (hB' : lBegin ≤ 1)
    (hrun : recur (tested callFitsShort (quick3Work lBegin lEnd)) fuel (lBegin, lEnd) v = some v') :
    Quick3Fits v lBegin lEnd := by
  refine Or.inr ⟨hB', fun R w k hcall _ => ?_⟩
  obtain ⟨hroom, hnone⟩ := of_decide_eq_true (hcall.of_tested hrun)
  exact ⟨fun hlow hsmaller => hsmaller.elim fun x h => hnone hlow x h.1 h.2.1 h.2.2, Or.inl hroom⟩

/-- 2, 0, 1, 2, 1, 0, 2, 1: the pivot is 1, and three elements are in each part. -/
def eightElements (i : ℤ) : ℕ := [2, 0, 1, 2, 1, 0, 2, 1].getD i.toNat 0

theorem Q_Quick_Sort_3_sorts_iff_eight : Quick3Sorts eightElements 0 7 :=
  (Q_Quick_Sort_3_sorts_iff eightElements (by decide) (by decide) (by decide)).mpr
    (quick3Fits_of_run 4 (by decide) (Option.eq_some_of_isSome (by decide)))

/-- Two elements in order, at 2 and 3: `v[1]` is swapped into the range. -/
theorem two_elements_outside : ¬ Quick3Sorts (fun i => i) 2 3 := by
  rw [quick3Sorts_iff_high _ le_rfl (by decide)]
  decide

end KalavaPir.Common.QuickSort3
