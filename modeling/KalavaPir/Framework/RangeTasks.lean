/-
  KalavaPir.Framework.RangeTasks — sorting an array by range tasks.

  A sort by divide and conquer, in any order: there is a multiset of tasks, each
  of them a range of positions.  A task is FINISHED by sorting its range, or
  SPLIT into two tasks for the parts of its range.  The parts may share one
  position, which then holds the least element of the right part.
-/
import KalavaPir.Framework.ArrayRange
import Mathlib.Data.Multiset.AddSub
import Mathlib.Data.Multiset.Basic

namespace KalavaPir.Framework

open Multiset

variable {K : Type} [LinearOrder K] {a₀ a a' : ℤ → K} {B E b e : ℤ}

/-! ## §1. Work inside a range. -/

/-- Work inside a range: its elements are permuted, and a least element that
    stands first keeps its place. -/
structure Reworked (a a' : ℤ → K) (b e : ℤ) : Prop where
  perm : ∃ π, Moves b e π ∧ a' = a ∘ π
  first : (∀ j, b ≤ j → j ≤ e → a b ≤ a j) → a' b = a b

/-- Sorting a range is such work. -/
theorem Reworked.of_sorted {π : Equiv.Perm ℤ} (hπ : Moves b e π) (hs : SortedOn (a ∘ π) b e) :
    Reworked a (a ∘ π) b e := by
  refine ⟨⟨π, hπ, rfl⟩, fun hmin => ?_⟩
  by_cases hbe : b ≤ e
  · obtain ⟨hlo, hhi⟩ := hπ.inside ⟨le_rfl, hbe⟩
    obtain ⟨hlo', hhi'⟩ := hπ.symm.inside ⟨le_rfl, hbe⟩
    refine le_antisymm ?_ (hmin (π b) hlo hhi)
    -- the first element of the sorted range is at most the one that stood first
    have hle := hs b (π.symm b) le_rfl hlo' hhi'
    show a (π b) ≤ a b
    simpa using hle
  · show a (π b) = a b
    rw [hπ b (by omega)]

variable {i : ℤ}

theorem Reworked.outside (h : Reworked a a' b e) (hi : i < b ∨ e < i) : a' i = a i := by
  obtain ⟨π, hπ, rfl⟩ := h.perm
  show a (π i) = a i
  rw [hπ i hi]

theorem Reworked.inside (h : Reworked a a' b e) (hi : b ≤ i ∧ i ≤ e) :
    ∃ k, (b ≤ k ∧ k ≤ e) ∧ a' i = a k := by
  obtain ⟨π, hπ, rfl⟩ := h.perm
  exact ⟨π i, hπ.inside hi, rfl⟩

/-- If the first element is a least one, every element of the new range that is
    not first is an element of the old range that was not first. -/
theorem Reworked.inside_first (h : Reworked a a' b e) (hmin : ∀ j, b ≤ j → j ≤ e → a b ≤ a j)
    (hi : b < i ∧ i ≤ e) :
    ∃ k, (b < k ∧ k ≤ e) ∧ a' i = a k := by
  have hfirst := h.first hmin
  obtain ⟨π, hπ, rfl⟩ := h.perm
  obtain ⟨hlo, hhi⟩ := hπ.inside ⟨le_of_lt hi.1, hi.2⟩
  by_cases hb : π i = b
  · -- then another least element has gone to the first place
    obtain ⟨hlo', hhi'⟩ := hπ.inside ⟨le_rfl, (by omega : b ≤ e)⟩
    have hne : π b ≠ b := by
      intro heq
      have := π.injective (hb.trans heq.symm)
      omega
    refine ⟨π b, ⟨by omega, hhi'⟩, ?_⟩
    show a (π i) = a (π b)
    rw [hb]
    exact hfirst.symm
  · exact ⟨π i, ⟨by omega, hhi⟩, rfl⟩

/-! ## §2. Tasks that are apart. -/

/-- `P` holds between any two members of `T`, also between two equal ones. -/
def AllPairs {α : Type} (P : α → α → Prop) (T : Multiset α) : Prop :=
  ∀ R T', T = R ::ₘ T' → ∀ S ∈ T', P R S

variable {α : Type} {P : α → α → Prop} {T : Multiset α}

theorem AllPairs.zero : AllPairs P 0 :=
  fun _ _ hT => absurd hT.symm cons_ne_zero

variable {R : α}

theorem AllPairs.cons (hsymm : ∀ {R S}, P R S → P S R) (h : AllPairs P T) (hR : ∀ S ∈ T, P R S) :
    AllPairs P (R ::ₘ T) := by
  intro R' T' hT S hS
  rcases cons_eq_cons.mp hT with ⟨rfl, rfl⟩ | ⟨-, cs, hcs, rfl⟩
  · exact hR S hS
  · rcases mem_cons.mp hS with rfl | hS
    · exact hsymm (hR R' (hcs ▸ mem_cons_self _ _))
    · exact h R' cs hcs S hS

theorem AllPairs.head (h : AllPairs P (R ::ₘ T)) : ∀ S ∈ T, P R S := h R T rfl

theorem AllPairs.tail (h : AllPairs P (R ::ₘ T)) : AllPairs P T := by
  intro R' T' hT S hS
  refine h R' (R ::ₘ T') ?_ S (mem_cons_of_mem hS)
  rw [hT, cons_swap]

theorem AllPairs.of_le {T' : Multiset α} (h : AllPairs P T) (hle : T' ≤ T) : AllPairs P T' := by
  obtain ⟨U, rfl⟩ := Multiset.le_iff_exists_add.mp hle
  intro R T'' hT S hS
  refine h R (T'' + U) ?_ S (mem_add.mpr (Or.inl hS))
  rw [hT, cons_add]

theorem AllPairs.imp {P' : α → α → Prop} (h : AllPairs P T) (himp : ∀ R ∈ T, ∀ S ∈ T, P R S → P' R S) :
    AllPairs P' T := by
  intro R T' hT S hS
  have hR : R ∈ T := hT ▸ mem_cons_self R T'
  have hS' : S ∈ T := hT ▸ mem_cons_of_mem hS
  exact himp R hR S hS' (h R T' hT S hS)

/-- Two ranges have no position in common, except that the last of one may be
    the first of the other and hold its least element. -/
def Apart (a : ℤ → K) (R S : ℤ × ℤ) : Prop :=
  R.2 < S.1 ∨ S.2 < R.1 ∨
    (R.2 = S.1 ∧ ∀ j, S.1 ≤ j → j ≤ S.2 → a S.1 ≤ a j) ∨
    (S.2 = R.1 ∧ ∀ j, R.1 ≤ j → j ≤ R.2 → a R.1 ≤ a j)

variable {S : ℤ × ℤ}

theorem Apart.symm {R : ℤ × ℤ} (h : Apart a R S) : Apart a S R := by
  rcases h with h | h | h | h
  · exact Or.inr (Or.inl h)
  · exact Or.inl h
  · exact Or.inr (Or.inr (Or.inr h))
  · exact Or.inr (Or.inr (Or.inl h))

/-- Two ranges have no position in common. -/
def Separate (R S : ℤ × ℤ) : Prop := ∀ j, R.1 ≤ j → j ≤ R.2 → ¬ (S.1 ≤ j ∧ j ≤ S.2)

theorem Separate.symm {R : ℤ × ℤ} (h : Separate R S) : Separate S R :=
  fun j hlo hhi hR => h j hR.1 hR.2 ⟨hlo, hhi⟩

theorem AllPairs.split {T : Multiset (ℤ × ℤ)} (h : AllPairs Separate ((b, e) ::ₘ T)) {x p : ℤ}
    (hxp : x < p) (hxe : x ≤ e) (hbp : b ≤ p) : AllPairs Separate ((b, x) ::ₘ (p, e) ::ₘ T) := by
  refine (h.tail.cons Separate.symm ?_).cons Separate.symm ?_
  · intro S hS j hlo hhi
    exact h.head S hS j (le_trans hbp hlo) hhi
  · intro S hS j hlo hhi
    rcases mem_cons.mp hS with rfl | hS
    · exact fun hin => absurd (lt_of_lt_of_le hxp hin.1) (not_lt.mpr hhi)
    · exact h.head S hS j hlo (le_trans hhi hxe)

/-- **The invariant** of the sort of the range from `B` to `E`: what `a₀` was,
    `a` is now, with the tasks `T` left to do. -/
structure Sorting (a₀ a : ℤ → K) (B E : ℤ) (T : Multiset (ℤ × ℤ)) : Prop where
  perm : ∃ π, Moves B E π ∧ a = a₀ ∘ π
  range : ∀ R ∈ T, B ≤ R.1 ∧ R.2 ≤ E
  apart : AllPairs (Apart a) T
  covered : ∀ i j, B ≤ i → i < j → j ≤ E → a i ≤ a j ∨ ∃ R ∈ T, R.1 ≤ i ∧ j ≤ R.2

theorem Sorting.start (a : ℤ → K) (B E : ℤ) : Sorting a a B E {(B, E)} where
  perm := ⟨1, Moves.one B E, rfl⟩
  range := by
    intro R hR
    rw [mem_singleton] at hR
    subst hR
    exact ⟨le_rfl, le_rfl⟩
  apart := AllPairs.zero.cons Apart.symm fun S hS => absurd hS (notMem_zero S)
  covered := fun i j hi _ hj => Or.inr ⟨(B, E), mem_singleton_self _, hi, hj⟩

/-- Without tasks the array is sorted. -/
theorem Sorting.sorted (h : Sorting a₀ a B E 0) : SortedOn a B E := by
  intro i j hi hij hj
  rcases eq_or_lt_of_le hij with rfl | hlt
  · exact le_rfl
  · rcases h.covered i j hi hlt hj with hle | ⟨R, hR, -⟩
    · exact hle
    · exact absurd hR (notMem_zero R)

section

variable {T : Multiset (ℤ × ℤ)}

variable {i j : ℤ}

/-- Elements of the task in hand are at most those to its right. -/
theorem Sorting.le_right (h : Sorting a₀ a B E ((b, e) ::ₘ T)) (hi : b ≤ i ∧ i ≤ e) (hij : e < j)
    (hj : j ≤ E) : a i ≤ a j := by
  have hB := (h.range _ (mem_cons_self _ _)).1
  rcases h.covered i j (by simp only at hB; omega) (by omega) hj with hle | ⟨S, hS, hSi, hSj⟩
  · exact hle
  rcases mem_cons.mp hS with rfl | hS
  · simp only at hSj
    omega
  rcases h.apart.head S hS with hlt | hlt | ⟨heq, hmin⟩ | ⟨heq, -⟩
  · simp only at hlt
    omega
  · simp only at hlt
    omega
  · -- the shared position is the least of that task
    obtain rfl : i = S.1 := by omega
    exact hmin j (by omega) hSj
  · simp only at heq
    omega

/-- Elements of the task in hand, but a shared first one, are at least those to
    its left. -/
theorem Sorting.le_left (h : Sorting a₀ a B E ((b, e) ::ₘ T)) (hj : B ≤ j ∧ j < b) (hi : b ≤ i ∧ i ≤ e)
    (hfirst : i = b → ∀ S ∈ T, j < S.1 ∨ S.2 < b) : a j ≤ a i := by
  have hE := (h.range _ (mem_cons_self _ _)).2
  rcases h.covered j i hj.1 (by omega) (by simp only at hE; omega) with hle | ⟨S, hS, hSj, hSi⟩
  · exact hle
  rcases mem_cons.mp hS with rfl | hS
  · simp only at hSj
    omega
  rcases h.apart.head S hS with hlt | hlt | ⟨heq, -⟩ | ⟨heq, -⟩
  · simp only at hlt
    omega
  · simp only at hlt
    omega
  · simp only at heq
    omega
  · simp only at heq
    have := hfirst (by omega) S hS
    omega

/-! ## §3. The two moves. -/

section

variable (h : Sorting a₀ a B E ((b, e) ::ₘ T))
include h

/-- Work on the task in hand leaves everything else in order. -/
theorem Sorting.cross (hw : Reworked a a' b e) (hi : B ≤ i) (hij : i < j) (hj : j ≤ E) (hout : ¬ (b ≤ i ∧ j ≤ e)) :
    a' i ≤ a' j ∨ ∃ S ∈ T, S.1 ≤ i ∧ j ≤ S.2 := by
  by_cases hiR : b ≤ i ∧ i ≤ e
  · -- from the task to the right
    obtain ⟨k, hk, hk'⟩ := hw.inside hiR
    rw [hk', hw.outside (Or.inr (by omega : e < j))]
    exact Or.inl (h.le_right hk (by omega) hj)
  by_cases hjR : b ≤ j ∧ j ≤ e
  · -- from the left into the task
    have hib : i < b := by omega
    rw [hw.outside (Or.inl hib)]
    by_cases hshared : ∃ S ∈ T, S.1 ≤ i ∧ b ≤ S.2
    · obtain ⟨S, hS, hSi, hSb⟩ := hshared
      have hleast : S.2 = b ∧ ∀ k, b ≤ k → k ≤ e → a b ≤ a k := by
        rcases h.apart.head S hS with hlt | hlt | ⟨heq, -⟩ | hleast
        · simp only at hlt
          omega
        · simp only at hlt
          omega
        · simp only at heq
          omega
        · exact hleast
      by_cases hjb : j = b
      · exact Or.inr ⟨S, hS, hSi, by omega⟩
      · obtain ⟨k, hk, hk'⟩ := hw.inside_first hleast.2 ⟨by omega, hjR.2⟩
        rw [hk']
        exact Or.inl (h.le_left ⟨hi, hib⟩ ⟨le_of_lt hk.1, hk.2⟩ fun heq => absurd heq (by omega))
    · obtain ⟨k, hk, hk'⟩ := hw.inside hjR
      rw [hk']
      refine Or.inl (h.le_left ⟨hi, hib⟩ hk fun _ S hS => ?_)
      by_contra hcon
      exact hshared ⟨S, hS, by omega, by omega⟩
  · -- neither end is touched
    rw [hw.outside (by omega), hw.outside (by omega)]
    rcases h.covered i j hi hij hj with hle | ⟨S, hS, hSi, hSj⟩
    · exact Or.inl hle
    · rcases mem_cons.mp hS with rfl | hS
      · exact absurd ⟨hSi, hSj⟩ hout
      · exact Or.inr ⟨S, hS, hSi, hSj⟩

/-- A least element that stands first in another task stays one. -/
theorem Sorting.least_kept (hw : Reworked a a' b e) {S : ℤ × ℤ} (hS : S ∈ T)
    (hmin : ∀ j, S.1 ≤ j → j ≤ S.2 → a S.1 ≤ a j) : ∀ j, S.1 ≤ j → j ≤ S.2 → a' S.1 ≤ a' j := by
  have hE := (h.range S (mem_cons_of_mem hS)).2
  intro j hj hj'
  rcases h.apart.head S hS with hlt | hlt | ⟨heq, -⟩ | ⟨heq, hleast⟩
  · simp only at hlt
    rw [hw.outside (Or.inr hlt), hw.outside (by omega)]
    exact hmin j hj hj'
  · simp only at hlt
    rw [hw.outside (by omega), hw.outside (by omega)]
    exact hmin j hj hj'
  · -- the task in hand ends where `S` begins
    by_cases hjS : j = S.1
    · rw [hjS]
    rw [hw.outside (i := j) (by omega)]
    by_cases hempty : e < b
    · rw [hw.outside (by omega)]
      exact hmin j hj hj'
    · obtain ⟨k, hk, hk'⟩ := hw.inside (i := S.1) (by omega)
      rw [hk']
      exact h.le_right hk (by omega) (by omega)
  · -- the task in hand begins where `S` ends
    have hsame : ∀ i, i ≤ S.2 → a' i = a i := by
      intro i hi
      by_cases hib : i = b
      · rw [hib]
        exact hw.first hleast
      · exact hw.outside (by omega)
    rw [hsame _ (by omega), hsame j hj']
    exact hmin j hj hj'

theorem Sorting.apart_kept (hw : Reworked a a' b e) : AllPairs (Apart a') T := by
  refine h.apart.tail.imp ?_
  rintro R hR S hS (hlt | hlt | ⟨heq, hmin⟩ | ⟨heq, hmin⟩)
  · exact Or.inl hlt
  · exact Or.inr (Or.inl hlt)
  · exact Or.inr (Or.inr (Or.inl ⟨heq, h.least_kept hw hS hmin⟩))
  · exact Or.inr (Or.inr (Or.inr ⟨heq, h.least_kept hw hR hmin⟩))

theorem Sorting.perm_kept (hw : Reworked a a' b e) : ∃ π, Moves B E π ∧ a' = a₀ ∘ π := by
  obtain ⟨hB, hE⟩ := h.range _ (mem_cons_self _ _)
  obtain ⟨π, hπ, rfl⟩ := h.perm
  obtain ⟨ρ, hρ, rfl⟩ := hw.perm
  exact ⟨π * ρ, hπ.mul (hρ.mono hB hE), rfl⟩

/-- **A finished task**: its range has been sorted. -/
theorem Sorting.finish (hw : Reworked a a' b e) (hs : SortedOn a' b e) : Sorting a₀ a' B E T where
  perm := h.perm_kept hw
  range := fun R hR => h.range R (mem_cons_of_mem hR)
  apart := h.apart_kept hw
  covered := by
    intro i j hi hij hj
    by_cases hin : b ≤ i ∧ j ≤ e
    · exact Or.inl (hs i j hin.1 (le_of_lt hij) hin.2)
    · exact h.cross hw hi hij hj hin

/-- **A split task**: its range has been partitioned at `p`, and the parts share
    at most this position. -/
theorem Sorting.split (hw : Reworked a a' b e) {x p : ℤ} (hbp : b < p) (hpe : p ≤ e)
    (hx : x + 1 = p ∨ (x = p ∧ p < e ∧ ∀ j, p ≤ j → j ≤ e → a' p ≤ a' j))
    (hcross : ∀ i j, b ≤ i → i < p → x < j → j ≤ e → a' i ≤ a' j) : Sorting a₀ a' B E ((b, x) ::ₘ (p, e) ::ₘ T) where
  perm := h.perm_kept hw
  range := by
    obtain ⟨hB, hE⟩ := h.range _ (mem_cons_self _ _)
    intro R hR
    rcases mem_cons.mp hR with rfl | hR
    · exact ⟨hB, by simp only; omega⟩
    · rcases mem_cons.mp hR with rfl | hR
      · exact ⟨by simp only; omega, hE⟩
      · exact h.range R (mem_cons_of_mem hR)
  apart := by
    refine ((h.apart_kept hw).cons Apart.symm ?_).cons Apart.symm ?_
    · -- the right part and the other tasks
      intro S hS
      rcases h.apart.head S hS with hlt | hlt | ⟨heq, hmin⟩ | ⟨heq, -⟩
      · exact Or.inl hlt
      · exact Or.inr (Or.inl (by simp only at hlt ⊢; omega))
      · exact Or.inr (Or.inr (Or.inl ⟨heq, h.least_kept hw hS hmin⟩))
      · exact Or.inr (Or.inl (by simp only at heq ⊢; omega))
    · -- the left part
      intro S hS
      rcases mem_cons.mp hS with rfl | hS
      · rcases hx with hx | ⟨rfl, -, hmin⟩
        · exact Or.inl (by simp only; omega)
        · exact Or.inr (Or.inr (Or.inl ⟨rfl, hmin⟩))
      rcases h.apart.head S hS with hlt | hlt | ⟨heq, -⟩ | ⟨heq, hmin⟩
      · exact Or.inl (by simp only at hlt ⊢; omega)
      · exact Or.inr (Or.inl hlt)
      · exact Or.inl (by simp only at heq ⊢; omega)
      · refine Or.inr (Or.inr (Or.inr ⟨heq, fun j hj hj' => ?_⟩))
        obtain ⟨k, hk, hk'⟩ := hw.inside (i := j) (by omega)
        rw [hw.first hmin, hk']
        exact hmin k hk.1 hk.2
  covered := by
    intro i j hi hij hj
    by_cases hin : b ≤ i ∧ j ≤ e
    · by_cases hleft : j ≤ x
      · exact Or.inr ⟨(b, x), mem_cons_self _ _, hin.1, hleft⟩
      · by_cases hright : p ≤ i
        · exact Or.inr ⟨(p, e), mem_cons_of_mem (mem_cons_self _ _), hright, hin.2⟩
        · exact Or.inl (hcross i j hin.1 (by omega) (by omega) hin.2)
    · rcases h.cross hw hi hij hj hin with hle | ⟨S, hS, hSij⟩
      · exact Or.inl hle
      · exact Or.inr ⟨S, mem_cons_of_mem (mem_cons_of_mem hS), hSij⟩

end

end

end KalavaPir.Framework
