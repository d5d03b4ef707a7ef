/-
  KalavaPir.Common.QUnrecursion — the sorts of `common/qalgorithm.h` that keep
  their own stack.

  `Q_Unrecursion_1K` partitions like `Q_Recursion_1K` and pushes the parts on
  `int32_t stack_buf[1<<10]`, two cells a range.  A push beyond its end writes
  outside of the array: the run FAULTS, as it does when the sum of two positions
  is no `int32_t`.
-/
import KalavaPir.Framework.RangeTasks
import KalavaPir.Common.QAlgorithm
import Mathlib.Algebra.BigOperators.Group.List.Basic

namespace KalavaPir.Common

open KalavaPir.Framework List

variable {K P Q : Type} [LinearOrder K]

/-! ## §1. `Q_Unrecursion_1K` (qalgorithm.h:606). -/

/-- How a run of a sort stands. -/
inductive SortRun (α : Type)
  | running
  | faults
  | returns (a : α)

/-- `while(lBegin<lEnd) { … }` from the whole range. -/
def partition (s : Parallel K P Q) (m n lMid : ℤ) : PartState K P Q :=
  partLoop (s.tKey_1 lMid) (n - m).toNat { items := s, lBegin := m, lEnd := n }

/-- `if(tKey_1[lBegin]<tMid_1) lBegin++;` -/
def pastMiddle (p : PartState K P Q) (tMid_1 : K) : ℤ :=
  if p.items.tKey_1 p.lBegin < tMid_1 then p.lBegin + 1 else p.lBegin

/-- `stack_buf[stack_pos++]=m; stack_buf[stack_pos++]=n;` on a stack of `size`
    cells. -/
def pushRange (size : ℕ) (m n : ℤ) (stack_buf : List (ℤ × ℤ)) : Option (List (ℤ × ℤ)) :=
  if 2 * (stack_buf.length + 1) ≤ size then some ((m, n) :: stack_buf) else none

/-- The two pushes after a partition. -/
def pushParts (size : ℕ) (m n lBegin lEnd : ℤ) (stack_buf : List (ℤ × ℤ)) :
    Option (List (ℤ × ℤ)) :=
  (if lEnd < n then pushRange size lEnd n stack_buf else some stack_buf).bind fun stack_buf =>
    if lBegin - 1 > m then pushRange size m (lBegin - 1) stack_buf else some stack_buf

/-- The parts of a partitioned range that are sorted further, in their order. -/
def partsOf (m n lBegin lEnd : ℤ) : List (ℤ × ℤ) :=
  (if lBegin - 1 > m then [(m, lBegin - 1)] else []) ++ if lEnd < n then [(lEnd, n)] else []

/-- `Q_FOREVER { … }`, the ranges of `stack_buf` with the last one in front. -/
def Q_Unrecursion (size : ℕ) : ℕ → List (ℤ × ℤ) → Parallel K P Q → SortRun (Parallel K P Q)
  | 0, _, _ => .running
  | _ + 1, [], s => .returns s
  | fuel + 1, (m, n) :: stack_buf, s =>
    if m ≥ n then Q_Unrecursion size fuel stack_buf s
    else if m + 1 = n then
      Q_Unrecursion size fuel stack_buf (if s.tKey_1 m > s.tKey_1 n then s.swap m n else s)
    else
      let lMid := wrap32 (m + n) / 2
      if lMid < 0 then .faults
      else
        let p := partition s m n lMid
        match pushParts size m n (pastMiddle p (s.tKey_1 lMid)) p.lEnd stack_buf with
        | none => .faults
        | some stack_buf => Q_Unrecursion size fuel stack_buf p.items

/-- The keys alone. -/
def keysOf (tKey_1 : ℤ → K) : Parallel K Unit Unit := ⟨tKey_1, fun _ => (), fun _ => ()⟩

/-- The function, with as many rounds as it can take. -/
def Q_Unrecursion_1K (lBegin lEnd : ℤ) (tKey_1 : ℤ → K) : SortRun (ℤ → K) :=
  match Q_Unrecursion (2 ^ 10) (2 * (lEnd - lBegin).toNat + 2) [(lBegin, lEnd)]
      (keysOf tKey_1) with
  | .running => .running
  | .faults => .faults
  | .returns s => .returns s.tKey_1

/-! ## §2. What a partition hands on. -/

/-- The range from `m` to `n` has been partitioned at `p.lEnd`; the left part
    ends before `l`. -/
structure Parted (s : Parallel K P Q) (m n : ℤ) (p : PartState K P Q) (l : ℤ) : Prop where
  perm : ∃ π, Moves m n π ∧ p.items = s.permute π
  work : Reworked s.tKey_1 p.items.tKey_1 m n
  lower : m < p.lEnd
  upper : p.lEnd ≤ n
  /-- the parts are disjoint, or share a least element of the right one -/
  parts : l = p.lEnd ∨ (l = p.lEnd + 1 ∧ p.lEnd < n ∧
    ∀ j, p.lEnd ≤ j → j ≤ n → p.items.tKey_1 p.lEnd ≤ p.items.tKey_1 j)
  cross : ∀ i j, m ≤ i → i < p.lEnd → l - 1 < j → j ≤ n → p.items.tKey_1 i ≤ p.items.tKey_1 j

section Loop

variable {s : Parallel K P Q} {m n : ℤ} {mid : K} {p : PartState K P Q}

/-- A round keeps the first element if it is a least one: it is only ever
    swapped with an equal one. -/
theorem partRound_first (h : PartAt s m n mid p) (hlt : p.lBegin < p.lEnd)
    (hmin : ∀ j, m ≤ j → j ≤ n → s.tKey_1 m ≤ s.tKey_1 j) (hfirst : p.items.tKey_1 m = s.tKey_1 m) :
    (partRound mid p).items.tKey_1 m = s.tKey_1 m := by
  have hlower := h.lower
  have hupper := h.upper
  obtain ⟨l, r, hlo, hlr, hhi, _, _, hup, hdown, ⟨_, heq⟩ | ⟨hmeet, heq⟩⟩ := partRound_cases mid p hlt
  · rw [heq]
    exact hfirst
  rw [heq]
  show (p.items.swap l r).tKey_1 m = s.tKey_1 m
  by_cases hm : m = l
  · -- the first element stopped the scan: it is the middle one, and so is the other
    obtain ⟨π, hπ, hitems⟩ := h.perm
    obtain ⟨hlo', hhi'⟩ := hπ.inside (i := r) ⟨by omega, by omega⟩
    have hge : s.tKey_1 m ≤ p.items.tKey_1 r := by
      rw [hitems]
      exact hmin (π r) hlo' hhi'
    have hle : p.items.tKey_1 r ≤ s.tKey_1 m := by
      rw [← hfirst, hm]
      exact le_trans (hdown hmeet) (hup (by omega))
    rw [hm, Parallel.swap_left _ (by omega), ← hm]
    exact le_antisymm hle hge
  · rw [Parallel.swap_other _ hm (by omega)]
    exact hfirst

theorem partLoop_first (k : ℕ) (hmin : ∀ j, m ≤ j → j ≤ n → s.tKey_1 m ≤ s.tKey_1 j) :
    ∀ {p : PartState K P Q}, PartAt s m n mid p → p.items.tKey_1 m = s.tKey_1 m →
      (partLoop mid k p).items.tKey_1 m = s.tKey_1 m := by
  induction k with
  | zero => exact fun _ hfirst => hfirst
  | succ k ih =>
    intro p h hfirst
    unfold partLoop
    by_cases hlt : p.lBegin < p.lEnd
    · rw [if_pos hlt]
      exact ih (h.round hlt).1 (partRound_first h hlt hmin hfirst)
    · rw [if_neg hlt]
      exact hfirst

end Loop

/-- **THE PARTITION**, as the sorts by range tasks need it. -/
theorem partition_parted (s : Parallel K P Q) {m n lMid : ℤ} (hm : m < lMid) (hn : lMid < n) :
    Parted s m n (partition s m n lMid) (pastMiddle (partition s m n lMid) (s.tKey_1 lMid)) := by
  obtain ⟨π, r, hπ, hmr, hrn, hloop, hleft, hright, hshort⟩ := partLoop_spec s hm hn
  have hfirst : (∀ j, m ≤ j → j ≤ n → s.tKey_1 m ≤ s.tKey_1 j) →
      (partition s m n lMid).items.tKey_1 m = s.tKey_1 m := fun hmin =>
    partLoop_first _ hmin (PartAt.start s _ (by omega)) rfl
  unfold partition at hfirst ⊢
  rw [hloop] at hfirst ⊢
  unfold pastMiddle
  dsimp only at hfirst ⊢
  by_cases hlt : (s.permute π).tKey_1 r < s.tKey_1 lMid
  · rw [if_pos hlt]
    refine ⟨⟨π, hπ, rfl⟩, ⟨⟨π, hπ, rfl⟩, hfirst⟩, hmr, hrn, Or.inr ⟨rfl, ?_, ?_⟩, ?_⟩
    · exact hshort.resolve_right (not_le.mpr hlt)
    · intro j hj hj'
      rcases eq_or_lt_of_le hj with rfl | hgt
      · exact le_rfl
      · exact le_trans (le_of_lt hlt) (hright j hgt hj')
    · intro i j hi hir hj hj'
      exact le_trans (hleft i hi hir) (hright j (by omega) hj')
  · rw [if_neg hlt]
    refine ⟨⟨π, hπ, rfl⟩, ⟨⟨π, hπ, rfl⟩, hfirst⟩, hmr, hrn, Or.inl rfl, ?_⟩
    intro i j hi hir hj hj'
    by_cases heq : j = r
    · rw [heq]
      exact le_trans (hleft i hi hir) (not_lt.mp hlt)
    · exact le_trans (hleft i hi hir) (hright j (by omega) hj')

theorem partition_met (s : Parallel K P Q) {m n lMid : ℤ} (hm : m < lMid) (hn : lMid < n) :
    (partition s m n lMid).lBegin = (partition s m n lMid).lEnd := by
  obtain ⟨π, r, -, -, -, hloop, -⟩ := partLoop_spec s hm hn
  unfold partition
  rw [hloop]

/-! ## §3. One range. -/

/-- What becomes of a range before its parts are sorted, on unbounded integers. -/
def sortStep (R : ℤ × ℤ) (s : Parallel K P Q) : Parallel K P Q × List (ℤ × ℤ) :=
  if R.1 ≥ R.2 then (s, [])
  else if R.1 + 1 = R.2 then (if s.tKey_1 R.1 > s.tKey_1 R.2 then s.swap R.1 R.2 else s, [])
  else
    let lMid := (R.1 + R.2) / 2
    let p := partition s R.1 R.2 lMid
    (p.items, partsOf R.1 R.2 (pastMiddle p (s.tKey_1 lMid)) p.lEnd)

/-- A range that is partitioned has a sum that is an `int32_t`. -/
def SumFits (R : ℤ × ℤ) : Prop := R.1 + 1 < R.2 → R.1 + R.2 < 2 ^ 31

instance : DecidablePred SumFits := fun R => inferInstanceAs (Decidable (R.1 + 1 < R.2 → _))

/-- How many rounds a range costs at most. -/
def cost (R : ℤ × ℤ) : ℕ := if R.2 ≤ R.1 then 1 else 2 * (R.2 - R.1).toNat - 1

theorem cost_pos (R : ℤ × ℤ) : 1 ≤ cost R := by
  unfold cost
  split <;> omega

theorem cost_eq {m n : ℤ} (h : m < n) : cost (m, n) = 2 * (n - m).toNat - 1 := if_neg (not_le.mpr h)

/-- The number of steps from one end of a range to the other. -/
def span (R : ℤ × ℤ) : ℕ := (R.2 - R.1).toNat

section Step

variable {s : Parallel K P Q} {m n l r : ℤ} {stack_buf : List (ℤ × ℤ)}

theorem sortStep_small (h : m ≥ n) : sortStep (m, n) s = (s, []) := if_pos h

theorem sortStep_two (s : Parallel K P Q) (m : ℤ) : sortStep (m, m + 1) s =
    (if s.tKey_1 m > s.tKey_1 (m + 1) then s.swap m (m + 1) else s, []) := by
  unfold sortStep
  rw [if_neg (by simp only; omega), if_pos rfl]

theorem sortStep_more (hle : ¬ m ≥ n) (htwo : m + 1 ≠ n) : sortStep (m, n) s =
    ((partition s m n ((m + n) / 2)).items,
      partsOf m n (pastMiddle (partition s m n ((m + n) / 2)) (s.tKey_1 ((m + n) / 2)))
        (partition s m n ((m + n) / 2)).lEnd) := by
  unfold sortStep
  rw [if_neg hle, if_neg htwo]

/-- A sum over the parts, to which a part of one element adds nothing. -/
theorem partsOf_sum (f : ℤ × ℤ → ℕ) (g : ℕ → ℕ) (hf : ∀ m n, m < n → f (m, n) = g (n - m).toNat)
    (hg : g 0 = 0) (m n l r : ℤ) : ((partsOf m n l r).map f).sum = g (l - 1 - m).toNat + g (n - r).toNat := by
  -- a part is pushed if it has two elements or more
  have hone : ∀ a b : ℤ, ((if a < b then [(a, b)] else []).map f).sum = g (b - a).toNat := by
    intro a b
    split
    next h =>
      exact hf a b h
    next h =>
      rw [show (b - a).toNat = 0 by omega, hg]
      rfl
  rw [partsOf, map_append, sum_append]
  exact congrArg₂ (· + ·) (hone m (l - 1)) (hone r n)

theorem partsOf_nonempty : ∀ R ∈ partsOf m n l r, R.1 < R.2 := by
  intro R hR
  rcases mem_append.mp hR with hR | hR
  · split at hR
    next h =>
      rw [mem_singleton.mp hR]
      exact h
    next => exact absurd hR not_mem_nil
  split at hR
  next h =>
    rw [mem_singleton.mp hR]
    exact h
  next => exact absurd hR not_mem_nil

theorem Parted.less {p : PartState K P Q} (h : Parted s m n p l) :
    ((partsOf m n l p.lEnd).map cost).sum < cost (m, n) ∧
      ((partsOf m n l p.lEnd).map span).sum ≤ span (m, n) := by
  have hlower := h.lower
  have hupper := h.upper
  have hl : l = p.lEnd ∨ l = p.lEnd + 1 ∧ p.lEnd < n := h.parts.imp_right fun h => ⟨h.1, h.2.1⟩
  constructor
  · rw [partsOf_sum cost (fun k => 2 * k - 1) (fun m n h => cost_eq h) rfl, cost_eq (by omega)]
    omega
  · rw [partsOf_sum span id (fun _ _ _ => rfl) rfl]
    show (l - 1 - m).toNat + (n - p.lEnd).toNat ≤ (n - m).toNat
    omega

theorem sortStep_cases (R : ℤ × ℤ) (s : Parallel K P Q) : (sortStep R s).2 = [] ∨
    ∃ p l, Parted s R.1 R.2 p l ∧ (sortStep R s).2 = partsOf R.1 R.2 l p.lEnd := by
  obtain ⟨m, n⟩ := R
  by_cases hle : m ≥ n
  · rw [sortStep_small hle]
    exact Or.inl rfl
  by_cases htwo : m + 1 = n
  · subst htwo
    rw [sortStep_two]
    exact Or.inl rfl
  rw [sortStep_more hle htwo]
  exact Or.inr ⟨_, _, partition_parted s (by omega) (by omega), rfl⟩

theorem sortStep_cost (R : ℤ × ℤ) (s : Parallel K P Q) : ((sortStep R s).2.map cost).sum < cost R := by
  obtain hnil | ⟨p, l, hp, hparts⟩ := sortStep_cases R s
  · rw [hnil]
    exact cost_pos R
  · rw [hparts]
    exact hp.less.1

theorem sortStep_span (R : ℤ × ℤ) (s : Parallel K P Q) : ((sortStep R s).2.map span).sum ≤ span R := by
  obtain hnil | ⟨p, l, hp, hparts⟩ := sortStep_cases R s
  · rw [hnil]
    exact Nat.zero_le _
  · rw [hparts]
    exact hp.less.2

theorem sortStep_nonempty (R : ℤ × ℤ) (s : Parallel K P Q) : ∀ S ∈ (sortStep R s).2, S.1 < S.2 := by
  obtain hnil | ⟨p, l, -, hparts⟩ := sortStep_cases R s
  · rw [hnil]
    exact fun S hS => absurd hS not_mem_nil
  · rw [hparts]
    exact partsOf_nonempty

theorem length_le_span (h : ∀ R ∈ stack_buf, R.1 < R.2) : stack_buf.length ≤ (stack_buf.map span).sum := by
  induction stack_buf with
  | nil => exact le_rfl
  | cons R stack_buf ih =>
    have hR := h R mem_cons_self
    have ih' := ih fun S hS => h S (mem_cons_of_mem R hS)
    rw [length_cons, map_cons, sum_cons]
    have hone : 1 ≤ span R := by
      unfold span
      omega
    omega

/-- What the two pushes leave on the stack, unless it is too small. -/
theorem pushParts_cases (size : ℕ) (m n l r : ℤ) (stack_buf : List (ℤ × ℤ)) :
    pushParts size m n l r stack_buf = some (partsOf m n l r ++ stack_buf) ∨
      pushParts size m n l r stack_buf = none ∧
        size < 2 * ((partsOf m n l r).length + stack_buf.length) := by
  unfold pushParts pushRange partsOf
  by_cases hr : r < n
  · rw [if_pos hr, if_pos hr]
    by_cases hroom : 2 * (stack_buf.length + 1) ≤ size
    · rw [if_pos hroom, Option.bind_some]
      by_cases hl : l - 1 > m
      · rw [if_pos hl, if_pos hl]
        by_cases hroom' : 2 * (((r, n) :: stack_buf).length + 1) ≤ size
        · rw [if_pos hroom']
          exact Or.inl rfl
        -- the right part went on the stack, the left one does not fit behind it
        · rw [if_neg hroom']
          refine Or.inr ⟨rfl, ?_⟩
          simp only [length_cons, length_append, length_nil] at hroom' ⊢
          omega
      · rw [if_neg hl, if_neg hl]
        exact Or.inl rfl
    · rw [if_neg hroom, Option.bind_none]
      refine Or.inr ⟨rfl, ?_⟩
      simp only [length_append, length_singleton]
      omega
  · rw [if_neg hr, if_neg hr, Option.bind_some]
    by_cases hl : l - 1 > m
    · rw [if_pos hl, if_pos hl]
      by_cases hroom : 2 * (stack_buf.length + 1) ≤ size
      · rw [if_pos hroom]
        exact Or.inl rfl
      rw [if_neg hroom]
      refine Or.inr ⟨rfl, ?_⟩
      simp only [append_nil, length_singleton]
      omega
    · rw [if_neg hl, if_neg hl]
      exact Or.inl rfl

end Step

/-! ## §4. One round, and the sort. -/

/-- The stack holds the tasks of the sort of the range from `B` to `E`. -/
structure StackAt (s₀ s : Parallel K P Q) (B E : ℤ) (stack_buf : List (ℤ × ℤ)) : Prop where
  perm : ∃ π, Moves B E π ∧ s = s₀.permute π
  sorting : Sorting s₀.tKey_1 s.tKey_1 B E stack_buf

section Stack

variable {s₀ s : Parallel K P Q} {B E m n : ℤ} {stack_buf : List (ℤ × ℤ)} {size : ℕ}

theorem StackAt.start (s : Parallel K P Q) (B E : ℤ) : StackAt s s B E [(B, E)] :=
  ⟨⟨1, Moves.one B E, rfl⟩, Sorting.start s.tKey_1 B E⟩

section

variable (h : StackAt s₀ s B E ((m, n) :: stack_buf))
include h

theorem StackAt.finish {s' : Parallel K P Q} (hs : SortsRange s s' m n) : StackAt s₀ s' B E stack_buf := by
  obtain ⟨hB, hE⟩ := h.sorting.range (m, n) mem_cons_self
  obtain ⟨π, hπ, rfl⟩ := h.perm
  obtain ⟨ρ, hρ, rfl, hsorted⟩ := hs
  have hwork : Reworked (s₀.permute π).tKey_1 ((s₀.permute π).permute ρ).tKey_1 m n :=
    Reworked.of_sorted hρ hsorted
  exact ⟨⟨π * ρ, hπ.mul (hρ.mono hB hE), rfl⟩, h.sorting.finish hwork hsorted⟩

theorem StackAt.drop (hmn : n ≤ m) : StackAt s₀ s B E stack_buf :=
  h.finish (SortsRange.of_le s hmn)

/-- A partitioned range is replaced by its parts. -/
theorem StackAt.split {p : PartState K P Q} {l : ℤ} (hp : Parted s m n p l) :
    StackAt s₀ p.items B E (partsOf m n l p.lEnd ++ stack_buf) := by
  obtain ⟨hB, hE⟩ := h.sorting.range (m, n) mem_cons_self
  have hparts := hp.parts
  have hboth : StackAt s₀ p.items B E ((m, l - 1) :: (p.lEnd, n) :: stack_buf) := by
    have hsort : Sorting s₀.tKey_1 s.tKey_1 B E ((m, n) ::ₘ (stack_buf : Multiset (ℤ × ℤ))) :=
      h.sorting
    refine ⟨?_, hsort.split hp.work hp.lower hp.upper ?_ hp.cross⟩
    · obtain ⟨π, hπ, rfl⟩ := h.perm
      obtain ⟨ρ, hρ, hitems⟩ := hp.perm
      exact ⟨π * ρ, hπ.mul (hρ.mono hB hE), hitems⟩
    · rcases hparts with heq | ⟨heq, hmin⟩
      · exact Or.inl (by omega)
      · exact Or.inr ⟨by omega, hmin⟩
  rw [partsOf, append_assoc]
  -- parts of at most one element are not pushed
  have hright : StackAt s₀ p.items B E ((m, l - 1) :: ((if p.lEnd < n then [(p.lEnd, n)] else []) ++
      stack_buf)) := by
    split
    next => exact hboth
    next hr =>
      have hswap : StackAt s₀ p.items B E ((p.lEnd, n) :: (m, l - 1) :: stack_buf) :=
        ⟨hboth.perm, by
          have hsort := hboth.sorting
          rw [← Multiset.cons_coe, ← Multiset.cons_coe, Multiset.cons_swap] at hsort
          exact hsort⟩
      exact hswap.drop (by omega)
  split
  next => exact hright
  next hl => exact hright.drop (by omega)

theorem StackAt.step : StackAt s₀ (sortStep (m, n) s).1 B E ((sortStep (m, n) s).2 ++ stack_buf) := by
  by_cases hle : m ≥ n
  · rw [sortStep_small hle]
    exact h.drop hle
  by_cases htwo : m + 1 = n
  · subst htwo
    rw [sortStep_two]
    exact h.finish (sortsRange_two s m)
  rw [sortStep_more hle htwo]
  exact h.split (partition_parted s (by omega) (by omega))

end

/-- **ONE ROUND** replaces the range on top by its parts; or it faults, for the sum
    does not fit, or the stack is too small. -/
theorem Q_Unrecursion_round (size : ℕ) (hB : 0 ≤ B) (hE : E < 2 ^ 31)
    (h : StackAt s₀ s B E ((m, n) :: stack_buf)) :
    (SumFits (m, n) ∧ ∀ fuel, Q_Unrecursion size (fuel + 1) ((m, n) :: stack_buf) s =
      Q_Unrecursion size fuel ((sortStep (m, n) s).2 ++ stack_buf) (sortStep (m, n) s).1) ∨
    ((SumFits (m, n) → size < 2 * ((sortStep (m, n) s).2 ++ stack_buf).length) ∧
      ∀ fuel, Q_Unrecursion size (fuel + 1) ((m, n) :: stack_buf) s = .faults) := by
  obtain ⟨hBm, hnE⟩ := h.sorting.range (m, n) mem_cons_self
  by_cases hle : m ≥ n
  · refine Or.inl ⟨fun hlt => absurd hlt (by simp only; omega), fun fuel => ?_⟩
    rw [Q_Unrecursion, if_pos hle, sortStep_small hle]
    rfl
  by_cases htwo : m + 1 = n
  · subst htwo
    refine Or.inl ⟨fun hlt => absurd hlt (lt_irrefl _), fun fuel => ?_⟩
    rw [Q_Unrecursion, if_neg hle, if_pos rfl, sortStep_two]
    rfl
  obtain ⟨hsum, hmid⟩ | ⟨hsum, hneg⟩ := middle_cases (by omega : 0 ≤ m) (by omega : m ≤ n) (by omega)
  -- the sum is an `int32_t`: the code's middle is the one on unbounded integers
  · rw [sortStep_more hle htwo]
    obtain hpush | ⟨hpush, hsmall⟩ := pushParts_cases size m n
      (pastMiddle (partition s m n ((m + n) / 2)) (s.tKey_1 ((m + n) / 2)))
      (partition s m n ((m + n) / 2)).lEnd stack_buf
    · refine Or.inl ⟨fun _ => hsum, fun fuel => ?_⟩
      rw [Q_Unrecursion, if_neg hle, if_neg htwo]
      dsimp only
      rw [hmid, if_neg (by omega), hpush]
    rw [length_append]
    refine Or.inr ⟨fun _ => hsmall, fun fuel => ?_⟩
    rw [Q_Unrecursion, if_neg hle, if_neg htwo]
    dsimp only
    rw [hmid, if_neg (by omega), hpush]
  -- the sum has wrapped around to a negative middle
  · refine Or.inr ⟨fun hfit => absurd (hfit (by simp only; omega)) (by simp only; omega), fun fuel => ?_⟩
    rw [Q_Unrecursion, if_neg hle, if_neg htwo]
    exact if_pos hneg

/-- **THE SORT WITH A STACK**: when it returns, the range is sorted. -/
theorem Q_Unrecursion_sorts (hB : 0 ≤ B) (hE : E < 2 ^ 31) (fuel : ℕ) :
    ∀ {stack_buf : List (ℤ × ℤ)} {s s' : Parallel K P Q}, StackAt s₀ s B E stack_buf →
      Q_Unrecursion size fuel stack_buf s = .returns s' → SortsRange s₀ s' B E := by
  induction fuel with
  | zero =>
    intro stack_buf s s' _ hrun
    cases hrun
  | succ fuel ih =>
    intro stack_buf s s' h hrun
    cases stack_buf with
    | nil =>
      cases hrun
      obtain ⟨π, hπ, hs⟩ := h.perm
      exact ⟨π, hπ, hs, h.sorting.sorted⟩
    | cons R stack_buf =>
      obtain ⟨-, hround⟩ | ⟨-, hfault⟩ := Q_Unrecursion_round size hB hE h
      · rw [hround] at hrun
        exact ih h.step hrun
      · rw [hfault] at hrun
        cases hrun

/-! ## §5. Returning, and the depth of the stack. -/

/-- **The sort ends**: it returns, or it faults. -/
theorem Q_Unrecursion_not_running (hB : 0 ≤ B) (hE : E < 2 ^ 31) (fuel : ℕ) :
    ∀ {stack_buf : List (ℤ × ℤ)} {s : Parallel K P Q}, StackAt s₀ s B E stack_buf →
      (stack_buf.map cost).sum < fuel → Q_Unrecursion size fuel stack_buf s ≠ .running := by
  induction fuel with
  | zero =>
    intro stack_buf s _ hfuel
    omega
  | succ fuel ih =>
    intro stack_buf s h hfuel
    cases stack_buf with
    | nil =>
      intro hrun
      cases hrun
    | cons R stack_buf =>
      obtain ⟨m, n⟩ := R
      obtain ⟨-, hround⟩ | ⟨-, hfault⟩ := Q_Unrecursion_round size hB hE h
      · have hless := sortStep_cost (m, n) s
        rw [map_cons, sum_cons] at hfuel
        rw [hround]
        refine ih h.step ?_
        rw [map_append, sum_append]
        omega
      · rw [hfault]
        intro hrun
        cases hrun

/-- Ranges of two elements or more whose spans add up to half of the cells. -/
def Slack (size : ℕ) (stack_buf : List (ℤ × ℤ)) : Prop :=
  (∀ R ∈ stack_buf, R.1 < R.2) ∧ 2 * (stack_buf.map span).sum ≤ size

theorem Slack.length {stack_buf : List (ℤ × ℤ)} (h : Slack size stack_buf) : 2 * stack_buf.length ≤ size := by
  have hlen := length_le_span h.1
  have hspan := h.2
  omega

theorem Slack.step {R : ℤ × ℤ} (h : Slack size (R :: stack_buf)) (s : Parallel K P Q) :
    Slack size ((sortStep R s).2 ++ stack_buf) := by
  have hless := sortStep_span R s
  have hfit := h.2
  rw [map_cons, sum_cons] at hfit
  constructor
  · intro S hS
    rcases mem_append.mp hS with hS | hS
    · exact sortStep_nonempty R s S hS
    · exact h.1 S (mem_cons_of_mem R hS)
  · rw [map_append, sum_append]
    omega

theorem Q_Unrecursion_round_slack (hB : 0 ≤ B) (hE : E < 2 ^ 31)
    (h : StackAt s₀ s B E ((m, n) :: stack_buf)) (hslack : Slack size ((m, n) :: stack_buf)) :
    (SumFits (m, n) ∧ ∀ fuel, Q_Unrecursion size (fuel + 1) ((m, n) :: stack_buf) s =
      Q_Unrecursion size fuel ((sortStep (m, n) s).2 ++ stack_buf) (sortStep (m, n) s).1) ∨
    (¬ SumFits (m, n) ∧ ∀ fuel, Q_Unrecursion size (fuel + 1) ((m, n) :: stack_buf) s = .faults) :=
  (Q_Unrecursion_round size hB hE h).imp_right fun hfault =>
    ⟨fun hfit => absurd (hfault.1 hfit) (not_lt.mpr (hslack.step s).length), hfault.2⟩

/-- **The stack suffices** while there is slack. -/
theorem Q_Unrecursion_not_faults (hB : 0 ≤ B) (hE : E ≤ 2 ^ 30) (fuel : ℕ) :
    ∀ {stack_buf : List (ℤ × ℤ)} {s : Parallel K P Q}, StackAt s₀ s B E stack_buf →
      Slack size stack_buf → Q_Unrecursion size fuel stack_buf s ≠ .faults := by
  induction fuel with
  | zero =>
    intro stack_buf s _ _ hrun
    cases hrun
  | succ fuel ih =>
    intro stack_buf s h hslack
    cases stack_buf with
    | nil =>
      intro hrun
      cases hrun
    | cons R stack_buf =>
      obtain ⟨-, hnE⟩ := h.sorting.range R mem_cons_self
      obtain ⟨-, hround⟩ | ⟨hbad, -⟩ := Q_Unrecursion_round_slack hB (by omega) h hslack
      · rw [hround]
        exact ih h.step (hslack.step s)
      · refine absurd (fun hmore => ?_) hbad
        omega

end Stack

variable {n : ℕ} {lBegin lEnd : ℤ}

theorem slack_start {size : ℕ} (h : lBegin < lEnd) (hsize : 2 * (lEnd - lBegin).toNat ≤ size) :
    Slack size [(lBegin, lEnd)] := by
  constructor
  · intro R hR
    rw [mem_singleton.mp hR]
    exact h
  · rw [map_cons, map_nil, sum_singleton]
    exact hsize

theorem cost_lt_fuel (lBegin lEnd : ℤ) : ([(lBegin, lEnd)].map cost).sum < 2 * (lEnd - lBegin).toNat + 2 := by
  show (if lEnd ≤ lBegin then 1 else 2 * (lEnd - lBegin).toNat - 1) < _
  split <;> omega

theorem Q_Unrecursion_1K_sorts {tKey_1 tKey_1' : ℤ → K} (hB : 0 ≤ lBegin) (hE : lEnd < 2 ^ 31)
    (h : Q_Unrecursion_1K lBegin lEnd tKey_1 = .returns tKey_1') :
    ∃ π, Moves lBegin lEnd π ∧ tKey_1' = tKey_1 ∘ π ∧ SortedOn tKey_1' lBegin lEnd := by
  unfold Q_Unrecursion_1K at h
  split at h
  next => cases h
  next => cases h
  next s hrun =>
    cases h
    obtain ⟨π, hπ, rfl, hs⟩ := Q_Unrecursion_sorts hB hE _ (StackAt.start _ lBegin lEnd) hrun
    exact ⟨π, hπ, rfl, hs⟩

theorem Q_Unrecursion_1K_not_running (tKey_1 : ℤ → K) (hB : 0 ≤ lBegin) (hE : lEnd < 2 ^ 31) :
    Q_Unrecursion_1K lBegin lEnd tKey_1 ≠ .running := by
  have hend : Q_Unrecursion (2 ^ 10) (2 * (lEnd - lBegin).toNat + 2) [(lBegin, lEnd)]
      (keysOf tKey_1) ≠ .running :=
    Q_Unrecursion_not_running hB hE _ (StackAt.start _ lBegin lEnd) (cost_lt_fuel lBegin lEnd)
  unfold Q_Unrecursion_1K
  intro h
  split at h
  next hrun => exact hend hrun
  next => cases h
  next => cases h

/-- **No fault on up to 513 elements.** -/
theorem Q_Unrecursion_1K_returns (tKey_1 : ℤ → K) (hB : 0 ≤ lBegin) (hE : lEnd ≤ 2 ^ 30)
    (hspan : lEnd - lBegin ≤ 512) : ∃ tKey_1', Q_Unrecursion_1K lBegin lEnd tKey_1 = .returns tKey_1' := by
  have hnot := Q_Unrecursion_1K_not_running tKey_1 hB (by omega : lEnd < 2 ^ 31)
  cases hrun : Q_Unrecursion_1K lBegin lEnd tKey_1 with
  | running => exact absurd hrun hnot
  | returns a => exact ⟨a, rfl⟩
  | faults =>
    exfalso
    by_cases hle : lBegin ≥ lEnd
    · -- nothing to sort
      unfold Q_Unrecursion_1K at hrun
      rw [show 2 * (lEnd - lBegin).toNat + 2 = 1 + 1 by omega, Q_Unrecursion, if_pos hle] at hrun
      cases hrun
    have hslack : Slack (2 ^ 10) [(lBegin, lEnd)] := slack_start (not_le.mp hle) (by omega)
    have hno : Q_Unrecursion (2 ^ 10) (2 * (lEnd - lBegin).toNat + 2) [(lBegin, lEnd)]
        (keysOf tKey_1) ≠ .faults :=
      Q_Unrecursion_not_faults hB hE _ (StackAt.start _ lBegin lEnd) hslack
    unfold Q_Unrecursion_1K at hrun
    split at hrun
    next => cases hrun
    next hfault => exact hno hfault
    next => cases hrun

/-! ## §6. The stack overflows. -/

/-- The keys `0, …, n` in an order in which every partition meets the greatest
    key in the middle, and cuts off the last two elements. -/
def ladder : ℕ → ℤ → ℤ
  | 0 => id
  | n + 1 => ladder n ∘ Equiv.swap (((n : ℤ) + 1) / 2) ((n : ℤ) + 1)

theorem ladder_above : ∀ {n : ℕ} {i : ℤ}, (n : ℤ) < i → ladder n i = i
  | 0, _, _ => rfl
  | n + 1, i, hi => by
    show ladder n (Equiv.swap _ _ i) = i
    rw [Equiv.swap_apply_of_ne_of_ne (by omega) (by omega)]
    exact ladder_above (by omega)

theorem ladder_le : ∀ {n : ℕ} {i : ℤ}, i ≤ n → ladder n i ≤ n
  | 0, _, hi => hi
  | n + 1, i, hi => by
    show ladder n (Equiv.swap _ _ i) ≤ _
    push_cast at hi ⊢
    by_cases hmid : i = ((n : ℤ) + 1) / 2
    · rw [hmid, Equiv.swap_apply_left, ladder_above (by omega)]
    by_cases hlast : i = (n : ℤ) + 1
    · rw [hlast, Equiv.swap_apply_right]
      have hle := ladder_le (n := n) (i := ((n : ℤ) + 1) / 2) (by omega)
      omega
    · rw [Equiv.swap_apply_of_ne_of_ne hmid hlast]
      have hle := ladder_le (n := n) (i := i) (by omega)
      omega

theorem ladder_mid (n : ℕ) : ladder (n + 1) (((n : ℤ) + 1) / 2) = (n : ℤ) + 1 := by
  show ladder n (Equiv.swap _ _ _) = _
  rw [Equiv.swap_apply_left]
  exact ladder_above (by omega)

theorem ladder_other {i : ℤ} (hi : i ≤ (n : ℤ) + 1) (hmid : i ≠ ((n : ℤ) + 1) / 2) :
    ladder (n + 1) i ≤ n := by
  show ladder n (Equiv.swap _ _ i) ≤ _
  by_cases hlast : i = (n : ℤ) + 1
  · rw [hlast, Equiv.swap_apply_right]
    exact ladder_le (by omega)
  · rw [Equiv.swap_apply_of_ne_of_ne hmid hlast]
    exact ladder_le (by omega)

theorem partLoop_met (mid : K) (k : ℕ) {p : PartState K P Q} (h : ¬ p.lBegin < p.lEnd) :
    partLoop mid k p = p := by
  cases k with
  | zero => rfl
  | succ k => exact if_neg h

theorem ladder_swap (n : ℕ) :
    (keysOf (ladder (n + 1))).swap (((n : ℤ) + 1) / 2) ((n : ℤ) + 1) = keysOf (ladder n) := by
  rw [Parallel.swap_eq_permute]
  have hkeys : ladder (n + 1) ∘ Equiv.swap (((n : ℤ) + 1) / 2) ((n : ℤ) + 1) = ladder n := by
    show (ladder n ∘ Equiv.swap _ _) ∘ Equiv.swap _ _ = _
    funext i
    simp
  show (⟨_, _, _⟩ : Parallel ℤ Unit Unit) = _
  rw [← hkeys]
  rfl

/-- The first round swaps the greatest key to the end. -/
theorem partRound_ladder (hn : 2 ≤ n) :
    partRound ((n : ℤ) + 1) { items := keysOf (ladder (n + 1)), lBegin := 0, lEnd := (n : ℤ) + 1 } =
      { items := keysOf (ladder n), lBegin := ((n : ℤ) + 1) / 2 + 1, lEnd := n } := by
  obtain ⟨l, r, hlo, hlr, hhi, hless, hmore, hup, -, hcase⟩ := partRound_cases ((n : ℤ) + 1)
    { items := keysOf (ladder (n + 1)), lBegin := 0, lEnd := (n : ℤ) + 1 }
    (by show (0 : ℤ) < (n : ℤ) + 1; omega)
  dsimp only [keysOf] at hlo hhi hless hmore hup
  have hmid := ladder_mid n
  have hl : l ≤ ((n : ℤ) + 1) / 2 := by
    by_contra hbad
    have hlt := hless (((n : ℤ) + 1) / 2) (by omega) (by omega)
    omega
  have hleq : l = ((n : ℤ) + 1) / 2 := by
    by_contra hne
    have hle := ladder_other (n := n) (i := l) (by omega) hne
    omega
  have hreq : r = (n : ℤ) + 1 := by
    by_contra hne
    have hlt := hmore ((n : ℤ) + 1) (by omega) le_rfl
    have hle := ladder_le (n := n + 1) (i := (n : ℤ) + 1) (by push_cast; omega)
    omega
  subst hleq hreq
  rcases hcase with ⟨hmeet, -⟩ | ⟨-, heq⟩
  · omega
  · rw [heq, ladder_swap, if_pos (by omega), add_sub_cancel_right]

/-- **One rung**: the ladder loses its last element, and the last two make a
    part of their own. -/
theorem partition_ladder (hn : 2 ≤ n) :
    partition (keysOf (ladder (n + 1))) 0 ((n : ℤ) + 1) (((n : ℤ) + 1) / 2) =
      { items := keysOf (ladder n), lBegin := n, lEnd := n } := by
  have hkey : (keysOf (ladder (n + 1))).tKey_1 (((n : ℤ) + 1) / 2) = (n : ℤ) + 1 := ladder_mid n
  obtain ⟨k, hk⟩ : ∃ k, ((n : ℤ) + 1 - 0).toNat = k + 2 := ⟨n - 1, by omega⟩
  rw [partition, hkey, hk, partLoop, if_pos (by show (0 : ℤ) < (n : ℤ) + 1; omega),
    partRound_ladder hn, partLoop]
  split
  next hlt =>
    -- nothing stops the second scan
    obtain ⟨l, r, hlo, hlr, hhi, -, -, hup, -, hcase⟩ := partRound_cases ((n : ℤ) + 1)
      { items := keysOf (ladder n), lBegin := ((n : ℤ) + 1) / 2 + 1, lEnd := n } hlt
    dsimp only [keysOf] at hlo hhi hup
    have hleq : l = n := by
      by_contra hne
      have hle := ladder_le (n := n) (i := l) (by omega)
      omega
    subst hleq
    obtain rfl : r = n := by omega
    rcases hcase with ⟨-, heq⟩ | ⟨hbad, -⟩
    · rw [heq, partLoop_met _ _ (by dsimp only; omega)]
    · omega
  next hlt =>
    dsimp only at hlt
    have heq : ((n : ℤ) + 1) / 2 + 1 = n := by omega
    rw [heq]

/-- **The stack fills up** by one range with every rung. -/
theorem Q_Unrecursion_ladder (fuel : ℕ) : ∀ {n : ℕ} {stack_buf : List (ℤ × ℤ)}, 2 ≤ n → n < 2 ^ 30 →
    n ≤ fuel → 513 ≤ n + stack_buf.length → stack_buf.length ≤ 511 →
    Q_Unrecursion (2 ^ 10) fuel ((0, (n : ℤ) + 1) :: stack_buf) (keysOf (ladder (n + 1))) = .faults := by
  induction fuel with
  | zero => intro n stack_buf hn _ hfuel; omega
  | succ fuel ih =>
    intro n stack_buf hn hbound hfuel hdeep hshallow
    obtain ⟨hsum, hmid⟩ | ⟨hbad, _⟩ := middle_cases (le_refl (0 : ℤ))
      (by omega : (0 : ℤ) ≤ (n : ℤ) + 1) (by omega)
    · rw [zero_add] at hmid
      rw [Q_Unrecursion, if_neg (by omega), if_neg (by omega)]
      dsimp only
      rw [zero_add, hmid, if_neg (by omega), partition_ladder hn]
      have hkey : (keysOf (ladder (n + 1))).tKey_1 (((n : ℤ) + 1) / 2) = (n : ℤ) + 1 := ladder_mid n
      have hpast : pastMiddle
          ({ items := keysOf (ladder n), lBegin := n, lEnd := n } : PartState ℤ Unit Unit)
          ((n : ℤ) + 1) = (n : ℤ) + 1 :=
        if_pos (by
          have hle := ladder_le (n := n) (i := n) le_rfl
          show ladder n n < (n : ℤ) + 1
          omega)
      rw [hkey, hpast, pushParts, if_pos (by show (n : ℤ) < (n : ℤ) + 1; omega), pushRange,
        if_pos (by omega), Option.bind_some, if_pos (by omega), pushRange]
      by_cases hfull : stack_buf.length = 511
      · rw [if_neg (by rw [length_cons]; omega)]
      rw [if_pos (by rw [length_cons]; omega)]
      obtain ⟨k, rfl⟩ : ∃ k, n = k + 1 := ⟨n - 1, by omega⟩
      have hrec := @ih k ((((k + 1 : ℕ) : ℤ), ((k + 1 : ℕ) : ℤ) + 1) :: stack_buf)
        (by omega) (by omega) (by omega) (by rw [length_cons]; omega)
        (by rw [length_cons]; omega)
      rw [add_sub_cancel_right]
      exact hrec
    · omega

/-- **Longer ranges overflow the stack**, in the wrong order. -/
theorem Q_Unrecursion_1K_overflow (hn : 513 ≤ n) (hbound : n < 2 ^ 30) :
    Q_Unrecursion_1K 0 ((n : ℤ) + 1) (ladder (n + 1)) = .faults := by
  unfold Q_Unrecursion_1K
  rw [Q_Unrecursion_ladder _ (by omega) hbound (by omega) (by rw [length_nil]; omega)
    (by rw [length_nil]; omega)]

end KalavaPir.Common
