/-
  KalavaPir.Common.QAlgorithm — sorting and searching, `common/qalgorithm.h`.

  `Q_Recursion_1K_2P` sorts three parallel arrays by the first one, in place;
  `Q_Binary_Search_Default` searches an array that is sorted.  Positions are
  `int32_t`: the sum `lBegin+lEnd` is computed in 32 bits, and a position below
  0 is read outside of the array (`none`).

  The parts of a range overlap: the right one starts at `lEnd`, and the left
  one ends there as well if that element is less than the middle one.
-/
import KalavaPir.Framework.ArrayRange
import KalavaPir.Common.QStoreManager

namespace KalavaPir.Common

open KalavaPir.Framework Function

variable {K P Q : Type}

/-! ## §1. `Q_Recursion_1K_2P` (qalgorithm.h:1018). -/

/-- The three arrays. -/
structure Parallel (K P Q : Type) where
  tKey_1 : ℤ → K
  tKey_2 : ℤ → P
  tKey_3 : ℤ → Q

/-- The same swap in all three arrays. -/
def Parallel.swap (s : Parallel K P Q) (i j : ℤ) : Parallel K P Q where
  tKey_1 := update (update s.tKey_1 i (s.tKey_1 j)) j (s.tKey_1 i)
  tKey_2 := update (update s.tKey_2 i (s.tKey_2 j)) j (s.tKey_2 i)
  tKey_3 := update (update s.tKey_3 i (s.tKey_3 j)) j (s.tKey_3 i)

/-- The variables of the partition loop. -/
structure PartState (K P Q : Type) where
  items : Parallel K P Q
  lBegin : ℤ
  lEnd : ℤ

section Source

variable [LinearOrder K]

/-- `while(lBegin<lEnd&&tKey_1[lBegin]<tMid_1) lBegin++;`, where the number is
    `lEnd-lBegin`. -/
def scanUp (tKey_1 : ℤ → K) (tMid_1 : K) : ℕ → ℤ → ℤ
  | 0, lBegin => lBegin
  | k + 1, lBegin => if tKey_1 lBegin < tMid_1 then scanUp tKey_1 tMid_1 k (lBegin + 1) else lBegin

/-- `while(lBegin<lEnd&&tKey_1[lEnd]>tMid_1) lEnd--;` -/
def scanDown (tKey_1 : ℤ → K) (tMid_1 : K) : ℕ → ℤ → ℤ
  | 0, lEnd => lEnd
  | k + 1, lEnd => if tKey_1 lEnd > tMid_1 then scanDown tKey_1 tMid_1 k (lEnd - 1) else lEnd

/-- The body of `while(lBegin<lEnd)`. -/
def partRound (tMid_1 : K) (p : PartState K P Q) : PartState K P Q :=
  let lBegin := scanUp p.items.tKey_1 tMid_1 (p.lEnd - p.lBegin).toNat p.lBegin
  let lEnd := scanDown p.items.tKey_1 tMid_1 (p.lEnd - lBegin).toNat p.lEnd
  if lBegin < lEnd then
    { items := p.items.swap lBegin lEnd
      lBegin := lBegin + 1
      lEnd := if lBegin + 1 < lEnd then lEnd - 1 else lEnd }
  else { items := p.items, lBegin := lBegin, lEnd := lEnd }

/-- The loop: a round makes `lEnd-lBegin` smaller. -/
def partLoop (tMid_1 : K) : ℕ → PartState K P Q → PartState K P Q
  | 0, p => p
  | k + 1, p => if p.lBegin < p.lEnd then partLoop tMid_1 k (partRound tMid_1 p) else p

/-- The function, with fuel for the depth of the recursion. -/
def Q_Recursion_1K_2P : ℕ → ℤ → ℤ → Parallel K P Q → Option (Parallel K P Q)
  | 0, _, _, _ => none
  | fuel + 1, m, n, s =>
    if m ≥ n then some s
    else if m + 1 = n then
      if s.tKey_1 m > s.tKey_1 n then some (s.swap m n) else some s
    else
      let lMid := wrap32 (m + n) / 2
      if lMid < 0 then none
      else
        let tMid_1 := s.tKey_1 lMid
        let p := partLoop tMid_1 (n - m).toNat { items := s, lBegin := m, lEnd := n }
        let lBegin := if p.items.tKey_1 p.lBegin < tMid_1 then p.lBegin + 1 else p.lBegin
        let left := if lBegin - 1 > m then Q_Recursion_1K_2P fuel m (lBegin - 1) p.items
          else some p.items
        left.bind fun s => if p.lEnd < n then Q_Recursion_1K_2P fuel p.lEnd n s else some s

/-! ## §2. `Q_Binary_Search_Default` (qalgorithm.h:63). -/

/-- `while(lBegin<=lEnd)`, where the number is at least `lEnd-lBegin+1`. -/
def searchRounds (tpLibrary : ℤ → K) (tKey : K) : ℕ → ℤ → ℤ → Option ℤ
  | 0, _, _ => some (-1)
  | k + 1, lBegin, lEnd =>
    if lBegin ≤ lEnd then
      let lMidVal := wrap32 (lBegin + lEnd) / 2
      if lMidVal < 0 then none
      else
        let tMidVal := tpLibrary lMidVal
        if tMidVal < tKey then searchRounds tpLibrary tKey k (lMidVal + 1) lEnd
        else if tMidVal > tKey then searchRounds tpLibrary tKey k lBegin (lMidVal - 1)
        else some lMidVal
    else some (-1)

/-- The place of a key in a sorted range, or -1. -/
def Q_Binary_Search_Default (lBegin lEnd : ℤ) (tpLibrary : ℤ → K) (tKey : K) : Option ℤ :=
  if lBegin > lEnd then some (-1)
  else searchRounds tpLibrary tKey (lEnd - lBegin + 1).toNat lBegin lEnd

end Source

/-! ## §3. One permutation for three arrays. -/

/-- The same permutation of all three arrays. -/
def Parallel.permute (s : Parallel K P Q) (π : Equiv.Perm ℤ) : Parallel K P Q where
  tKey_1 := s.tKey_1 ∘ π
  tKey_2 := s.tKey_2 ∘ π
  tKey_3 := s.tKey_3 ∘ π

section

variable (s : Parallel K P Q)

theorem Parallel.swap_eq_permute (i j : ℤ) : s.swap i j = s.permute (Equiv.swap i j) := by
  unfold Parallel.swap Parallel.permute
  rw [update_update_eq_swap, update_update_eq_swap, update_update_eq_swap]

theorem Parallel.permute_permute (π ρ : Equiv.Perm ℤ) : (s.permute π).permute ρ = s.permute (π * ρ) := rfl

theorem Parallel.swap_right (i j : ℤ) : (s.swap i j).tKey_1 j = s.tKey_1 i :=
  update_self _ _ _

theorem Parallel.swap_left {i j : ℤ} (h : i ≠ j) : (s.swap i j).tKey_1 i = s.tKey_1 j := by
  show update (update s.tKey_1 i (s.tKey_1 j)) j (s.tKey_1 i) i = _
  rw [update_of_ne h, update_self]

theorem Parallel.swap_other {i j k : ℤ} (hi : k ≠ i) (hj : k ≠ j) : (s.swap i j).tKey_1 k = s.tKey_1 k := by
  show update (update s.tKey_1 i (s.tKey_1 j)) j (s.tKey_1 i) k = _
  rw [update_of_ne hj, update_of_ne hi]

end

variable [LinearOrder K]

/-! ## §4. The partition loop. -/

theorem scanUp_spec (a : ℤ → K) (mid : K) : ∀ (k : ℕ) (l : ℤ),
    l ≤ scanUp a mid k l ∧ scanUp a mid k l ≤ l + k ∧
      (∀ i, l ≤ i → i < scanUp a mid k l → a i < mid) ∧
      (scanUp a mid k l < l + k → mid ≤ a (scanUp a mid k l)) := by
  intro k
  induction k with
  | zero =>
    intro l
    show l ≤ l ∧ l ≤ l + 0 ∧ (∀ i, l ≤ i → i < l → _) ∧ (l < l + 0 → _)
    exact ⟨by omega, by omega, fun i _ _ => by omega, fun _ => by omega⟩
  | succ k ih =>
    intro l
    unfold scanUp
    by_cases hlt : a l < mid
    · rw [if_pos hlt]
      obtain ⟨hlo, hhi, hless, hstop⟩ := ih (l + 1)
      refine ⟨by omega, by omega, ?_, fun _ => hstop (by omega)⟩
      intro i hi hi'
      by_cases heq : i = l
      · rw [heq]
        exact hlt
      · exact hless i (by omega) hi'
    · rw [if_neg hlt]
      exact ⟨by omega, by omega, fun i _ _ => by omega, fun _ => not_lt.mp hlt⟩

theorem scanDown_spec (a : ℤ → K) (mid : K) : ∀ (k : ℕ) (r : ℤ),
    scanDown a mid k r ≤ r ∧ r - k ≤ scanDown a mid k r ∧
      (∀ i, scanDown a mid k r < i → i ≤ r → mid < a i) ∧
      (r - k < scanDown a mid k r → a (scanDown a mid k r) ≤ mid) := by
  intro k
  induction k with
  | zero =>
    intro r
    show r ≤ r ∧ r - 0 ≤ r ∧ (∀ i, r < i → i ≤ r → _) ∧ (r - 0 < r → _)
    exact ⟨by omega, by omega, fun i _ _ => by omega, fun _ => by omega⟩
  | succ k ih =>
    intro r
    unfold scanDown
    by_cases hgt : a r > mid
    · rw [if_pos hgt]
      obtain ⟨hhi, hlo, hmore, hstop⟩ := ih (r - 1)
      refine ⟨by omega, by omega, ?_, fun _ => hstop (by omega)⟩
      intro i hi hi'
      by_cases heq : i = r
      · rw [heq]
        exact hgt
      · exact hmore i hi (by omega)
    · rw [if_neg hgt]
      exact ⟨by omega, by omega, fun i _ _ => by omega, fun _ => not_lt.mp hgt⟩

/-- **What a round does**: both positions move up to an element that is on the
    wrong side, and these two are swapped; or they meet. -/
theorem partRound_cases (mid : K) (p : PartState K P Q) (hlt : p.lBegin < p.lEnd) :
    ∃ l r, p.lBegin ≤ l ∧ l ≤ r ∧ r ≤ p.lEnd ∧
      (∀ i, p.lBegin ≤ i → i < l → p.items.tKey_1 i < mid) ∧
      (∀ i, r < i → i ≤ p.lEnd → mid < p.items.tKey_1 i) ∧
      (l < p.lEnd → mid ≤ p.items.tKey_1 l) ∧ (l < r → p.items.tKey_1 r ≤ mid) ∧
      (l = r ∧ partRound mid p = { items := p.items, lBegin := l, lEnd := r } ∨
        l < r ∧ partRound mid p =
          { items := p.items.swap l r, lBegin := l + 1, lEnd := if l + 1 < r then r - 1 else r }) := by
  obtain ⟨hlo, hhi, hless, hstop⟩ :=
    scanUp_spec p.items.tKey_1 mid (p.lEnd - p.lBegin).toNat p.lBegin
  unfold partRound
  generalize scanUp p.items.tKey_1 mid (p.lEnd - p.lBegin).toNat p.lBegin = l at *
  obtain ⟨hhi', hlo', hmore, hstop'⟩ := scanDown_spec p.items.tKey_1 mid (p.lEnd - l).toNat p.lEnd
  dsimp only
  generalize scanDown p.items.tKey_1 mid (p.lEnd - l).toNat p.lEnd = r at *
  refine ⟨l, r, hlo, by omega, hhi', hless, hmore, fun _ => hstop (by omega),
    fun _ => hstop' (by omega), ?_⟩
  by_cases hmeet : l < r
  · rw [if_pos hmeet]
    exact Or.inr ⟨hmeet, rfl⟩
  · rw [if_neg hmeet]
    exact Or.inl ⟨by omega, rfl⟩

/-- **The invariant of the loop**: what is left of `lBegin` is at most the
    middle element, what is right of `lEnd` at least. -/
structure PartAt (s : Parallel K P Q) (m n : ℤ) (mid : K) (p : PartState K P Q) : Prop where
  perm : ∃ π, Moves m n π ∧ p.items = s.permute π
  lower : m ≤ p.lBegin
  order : p.lBegin ≤ p.lEnd
  upper : p.lEnd ≤ n
  left : ∀ i, m ≤ i → i < p.lBegin → p.items.tKey_1 i ≤ mid
  right : ∀ i, p.lEnd < i → i ≤ n → mid ≤ p.items.tKey_1 i

section Loop

variable {s : Parallel K P Q} {m n : ℤ} {mid : K} {p : PartState K P Q}

theorem PartAt.start (s : Parallel K P Q) (mid : K) (h : m ≤ n) :
    PartAt s m n mid { items := s, lBegin := m, lEnd := n } where
  perm := ⟨1, Moves.one m n, rfl⟩
  lower := Int.le_refl m
  order := h
  upper := Int.le_refl n
  left _ hi hi' := absurd hi' (not_lt.mpr hi)
  right _ hi hi' := absurd hi (not_lt.mpr hi')

theorem PartAt.round (h : PartAt s m n mid p) (hlt : p.lBegin < p.lEnd) : PartAt s m n mid (partRound mid p) ∧
      (partRound mid p).lEnd - (partRound mid p).lBegin < p.lEnd - p.lBegin := by
  obtain ⟨π, hπ, hitems⟩ := h.perm
  have hlower := h.lower
  have hupper := h.upper
  obtain ⟨l, r, hlo, hlr, hhi, hless, hmore, hup, hdown, hcase⟩ := partRound_cases mid p hlt
  have hleft : ∀ i, m ≤ i → i < l → p.items.tKey_1 i ≤ mid := by
    intro i hi hi'
    by_cases hold : i < p.lBegin
    · exact h.left i hi hold
    · exact le_of_lt (hless i (by omega) hi')
  have hright : ∀ i, r < i → i ≤ n → mid ≤ p.items.tKey_1 i := by
    intro i hi hi'
    by_cases hold : p.lEnd < i
    · exact h.right i hold hi'
    · exact le_of_lt (hmore i hi (by omega))
  obtain ⟨hmeet, heq⟩ | ⟨hmeet, heq⟩ := hcase
  · rw [heq]
    refine ⟨⟨⟨π, hπ, hitems⟩, ?_, hlr, ?_, hleft, hright⟩, ?_⟩
    · show m ≤ l
      omega
    · show r ≤ n
      omega
    · show r - l < _
      omega
  rw [heq]
  have hends : l + 1 ≤ (if l + 1 < r then r - 1 else r) ∧ (if l + 1 < r then r - 1 else r) ≤ r ∧
      r - 1 ≤ (if l + 1 < r then r - 1 else r) := by
    split <;> omega
  generalize (if l + 1 < r then r - 1 else r) = r' at hends ⊢
  refine ⟨⟨⟨π * Equiv.swap l r, hπ.mul (Moves.swap ⟨by omega, by omega⟩ ⟨by omega, by omega⟩), ?_⟩,
    ?_, ?_, ?_, ?_, ?_⟩, ?_⟩
  · show p.items.swap l r = _
    rw [Parallel.swap_eq_permute, hitems, Parallel.permute_permute]
  · show m ≤ l + 1
    omega
  · exact hends.1
  · show r' ≤ n
    omega
  · intro i hi hi'
    show (p.items.swap l r).tKey_1 i ≤ mid
    by_cases hil : i = l
    · rw [hil, Parallel.swap_left _ (by omega)]
      exact hdown hmeet
    · have hi'' : i < l + 1 := hi'
      rw [Parallel.swap_other _ hil (by omega)]
      exact hleft i hi (by omega)
  · intro i hi hi'
    show mid ≤ (p.items.swap l r).tKey_1 i
    have hi'' : r' < i := hi
    by_cases hir : i = r
    · rw [hir, Parallel.swap_right]
      exact hup (by omega)
    · rw [Parallel.swap_other _ (by omega) hir]
      exact hright i (by omega) hi'
  · show r' - (l + 1) < _
    omega

/-- The loop ends with the positions at the same element. -/
theorem PartAt.loop (k : ℕ) : ∀ {p : PartState K P Q}, PartAt s m n mid p → p.lEnd - p.lBegin ≤ k →
    PartAt s m n mid (partLoop mid k p) ∧ (partLoop mid k p).lBegin = (partLoop mid k p).lEnd := by
  induction k with
  | zero =>
    intro p h hk
    have horder := h.order
    exact ⟨h, by show p.lBegin = p.lEnd; omega⟩
  | succ k ih =>
    intro p h hk
    have horder := h.order
    unfold partLoop
    by_cases hlt : p.lBegin < p.lEnd
    · rw [if_pos hlt]
      obtain ⟨hround, hless⟩ := h.round hlt
      exact ih hround (by omega)
    · rw [if_neg hlt]
      exact ⟨h, by omega⟩

/-- **Progress**: the range to the right of `lEnd` has become smaller, and so
    has the one to the left of `lBegin`. -/
def Progress (m n : ℤ) (mid : K) (p : PartState K P Q) : Prop :=
  m < p.lBegin ∧ p.lBegin ≤ p.lEnd ∧
    (p.lEnd < n ∨ p.lBegin = p.lEnd ∧ mid ≤ p.items.tKey_1 p.lBegin)

/-- The first round makes progress, since the middle element stops it. -/
theorem progress_first (s : Parallel K P Q) {m n lMid : ℤ} (hm : m < lMid) (hn : lMid < n) :
    Progress m n (s.tKey_1 lMid) (partRound (s.tKey_1 lMid) { items := s, lBegin := m, lEnd := n }) := by
  obtain ⟨l, r, hlo, hlr, hhi, hless, hmore, hup, hdown, hcase⟩ :=
    partRound_cases (s.tKey_1 lMid) { items := s, lBegin := m, lEnd := n } (by show m < n; omega)
  have hl : l ≤ lMid := by
    by_contra hbad
    exact lt_irrefl _ (hless lMid (by show m ≤ lMid; omega) (by omega))
  have hr : lMid ≤ r := by
    by_contra hbad
    exact lt_irrefl _ (hmore lMid (by omega) (by show lMid ≤ n; omega))
  have hlo' : m ≤ l := hlo
  have hhi' : r ≤ n := hhi
  obtain ⟨hmeet, heq⟩ | ⟨hmeet, heq⟩ := hcase
  · rw [heq]
    show m < l ∧ l ≤ r ∧ (r < n ∨ _)
    omega
  rw [heq]
  refine ⟨by show m < l + 1; omega, by show l + 1 ≤ ite _ _ _; split <;> omega, ?_⟩
  show ite _ _ _ < n ∨ l + 1 = ite _ _ _ ∧ _ ≤ (s.swap l r).tKey_1 (l + 1)
  by_cases hnear : l + 1 < r
  · rw [if_pos hnear]
    exact Or.inl (by omega)
  -- the two elements were neighbours
  have hnext : l + 1 = r := by omega
  rw [if_neg hnear, hnext, Parallel.swap_right]
  exact Or.inr ⟨rfl, hup (by show l < n; omega)⟩

theorem Progress.round (h : Progress m n mid p) (hlt : p.lBegin < p.lEnd) :
    Progress m n mid (partRound mid p) := by
  obtain ⟨hbegin, _, hend⟩ := h
  obtain ⟨l, r, hlo, hlr, hhi, _, _, _, _, hcase⟩ := partRound_cases mid p hlt
  obtain ⟨hmeet, heq⟩ | ⟨hmeet, heq⟩ := hcase
  · rw [heq]
    exact ⟨by show m < l; omega, hlr, Or.inl (by show r < n; omega)⟩
  rw [heq]
  refine ⟨by show m < l + 1; omega, by show l + 1 ≤ ite _ _ _; split <;> omega, Or.inl ?_⟩
  show ite _ _ _ < n
  split <;> omega

theorem Progress.loop (k : ℕ) : ∀ {p : PartState K P Q}, Progress m n mid p →
    Progress m n mid (partLoop mid k p) := by
  induction k with
  | zero => exact fun h => h
  | succ k ih =>
    intro p h
    unfold partLoop
    by_cases hlt : p.lBegin < p.lEnd
    · rw [if_pos hlt]
      exact ih (h.round hlt)
    · rw [if_neg hlt]
      exact h

end Loop

variable {m n r : ℤ} {a : ℤ → K}

/-- **THE PARTITION**: the range has been permuted, the elements to the left of
    `lEnd` are at most the middle one, those to the right at least, and each
    of the two parts is shorter than the range. -/
theorem partLoop_spec (s : Parallel K P Q) {lMid : ℤ} (hm : m < lMid) (hn : lMid < n) :
    ∃ π r, Moves m n π ∧ m < r ∧ r ≤ n ∧
      partLoop (s.tKey_1 lMid) (n - m).toNat { items := s, lBegin := m, lEnd := n }
        = { items := s.permute π, lBegin := r, lEnd := r } ∧
      (∀ i, m ≤ i → i < r → (s.permute π).tKey_1 i ≤ s.tKey_1 lMid) ∧
      (∀ i, r < i → i ≤ n → s.tKey_1 lMid ≤ (s.permute π).tKey_1 i) ∧
      (r < n ∨ s.tKey_1 lMid ≤ (s.permute π).tKey_1 r) := by
  have hstart := PartAt.start s (s.tKey_1 lMid) (by omega : m ≤ n)
  obtain ⟨h, hmeet⟩ := hstart.loop (n - m).toNat (by show n - m ≤ _; omega)
  have hprogress : Progress m n (s.tKey_1 lMid)
      (partLoop (s.tKey_1 lMid) (n - m).toNat { items := s, lBegin := m, lEnd := n }) := by
    obtain ⟨k, hk⟩ : ∃ k, (n - m).toNat = k + 1 := ⟨(n - m).toNat - 1, by omega⟩
    rw [hk]
    unfold partLoop
    rw [if_pos (by show m < n; omega)]
    exact (progress_first s hm hn).loop k
  generalize partLoop (s.tKey_1 lMid) (n - m).toNat { items := s, lBegin := m, lEnd := n } = p at *
  obtain ⟨⟨π, hπ, hitems⟩, _, _, hupper, hleft, hright⟩ := h
  obtain ⟨items, l, r⟩ := p
  dsimp only at hmeet hitems hupper hleft hright
  rw [hmeet] at hprogress hleft ⊢
  rw [hitems] at hprogress hleft hright ⊢
  obtain ⟨hbegin, _, hend⟩ := hprogress
  exact ⟨π, r, hπ, hbegin, hupper, rfl, hleft, hright, hend.imp_right (fun hboth => hboth.2)⟩

/-! ## §5. The sort. -/

theorem middle_cases (hm : 0 ≤ m) (hmn : m ≤ n) (hn : n < 2 ^ 31) :
    m + n < 2 ^ 31 ∧ wrap32 (m + n) / 2 = (m + n) / 2 ∨ 2 ^ 31 ≤ m + n ∧ wrap32 (m + n) / 2 < 0 := by
  by_cases hsum : m + n < 2 ^ 31
  · have hwrap : wrap32 (m + n) = m + n := Int.bmod_eq_of_le_mul_two (by omega) (by omega)
    rw [hwrap]
    exact Or.inl ⟨hsum, rfl⟩
  have hwrap : wrap32 (m + n) = m + n - 2 ^ 32 := by
    unfold wrap32
    rw [← Int.sub_bmod_right]
    exact Int.bmod_eq_of_le_mul_two (by omega) (by omega)
  exact Or.inr ⟨by omega, by omega⟩

/-- **The two parts make the whole**, also where they overlap. -/
theorem sorted_of_parts {mid : K} {l : ℤ} (hl : l = if a r < mid then r + 1 else r)
    (hleft : ∀ i, m ≤ i → i < r → a i ≤ mid) (hright : ∀ i, r < i → i ≤ n → mid ≤ a i) {π ρ : Equiv.Perm ℤ}
    (hπ : Moves m (l - 1) π) (hsleft : SortedOn (a ∘ π) m (l - 1)) (hρ : Moves r n ρ)
    (hsright : SortedOn (a ∘ π ∘ ρ) r n) : SortedOn (a ∘ π ∘ ρ) m n := by
  have hcase : l = r + 1 ∧ a r < mid ∨ l = r ∧ mid ≤ a r := by
    by_cases hlt : a r < mid
    · rw [if_pos hlt] at hl
      exact Or.inl ⟨hl, hlt⟩
    · rw [if_neg hlt] at hl
      exact Or.inr ⟨hl, not_lt.mp hlt⟩
  -- the left part has only been permuted
  have hbelow : ∀ i, m ≤ i → i ≤ l - 1 → a (π i) ≤ mid := by
    intro i hi hi'
    obtain ⟨hlo, hhi⟩ := hπ.inside ⟨hi, hi'⟩
    by_cases hlast : π i = r
    · obtain ⟨_, hlt⟩ | ⟨heq, _⟩ := hcase
      · rw [hlast]
        exact le_of_lt hlt
      · omega
    · exact hleft (π i) hlo (by omega)
  have hfixed : ∀ j, r < j → π j = j := fun j hj => hπ j (by omega)
  refine SortedOn.join hρ (hsleft.mono (Int.le_refl m) (by omega)) hsright ?_
  intro i j hi hir hrj hjn
  show a (π i) ≤ a (π j)
  by_cases hj : j = r
  · rw [hj]
    obtain ⟨heq, _⟩ | ⟨heq, hge⟩ := hcase
    · exact hsleft i r hi (by omega) (by omega)
    · rw [hπ r (by omega)]
      exact le_trans (hbelow i hi (by omega)) hge
  · rw [hfixed j (by omega)]
    exact le_trans (hbelow i hi (by omega)) (hright j (by omega) hjn)

/-- What a sort of a range does. -/
def SortsRange (s s' : Parallel K P Q) (m n : ℤ) : Prop :=
  ∃ π, Moves m n π ∧ s' = s.permute π ∧ SortedOn s'.tKey_1 m n

theorem SortsRange.of_le (s : Parallel K P Q) (h : n ≤ m) : SortsRange s s m n :=
  ⟨1, Moves.one m n, rfl, SortedOn.of_le h⟩

/-- Two elements. -/
theorem sortsRange_two (s : Parallel K P Q) (m : ℤ) :
    SortsRange s (if s.tKey_1 m > s.tKey_1 (m + 1) then s.swap m (m + 1) else s) m (m + 1) := by
  have htwo : ∀ a : ℤ → K, a m ≤ a (m + 1) → SortedOn a m (m + 1) := by
    intro a hle i j hi hij hj
    by_cases heq : i = j
    · rw [heq]
    · rw [show i = m by omega, show j = m + 1 by omega]
      exact hle
  by_cases hgt : s.tKey_1 m > s.tKey_1 (m + 1)
  · rw [if_pos hgt]
    refine ⟨Equiv.swap m (m + 1), Moves.swap ⟨by omega, by omega⟩ ⟨by omega, by omega⟩,
      Parallel.swap_eq_permute s m (m + 1), htwo _ ?_⟩
    rw [Parallel.swap_right, Parallel.swap_left s (by omega)]
    exact le_of_lt hgt
  · rw [if_neg hgt]
    exact ⟨1, Moves.one _ _, rfl, htwo _ (not_lt.mp hgt)⟩

/-- **THE SORT.**  When it returns, the three arrays have been permuted alike
    and the first one is sorted. -/
theorem Q_Recursion_1K_2P_sorts (fuel : ℕ) : ∀ {m n : ℤ} {s s' : Parallel K P Q}, 0 ≤ m → n < 2 ^ 31 →
    Q_Recursion_1K_2P fuel m n s = some s' → SortsRange s s' m n := by
  induction fuel with
  | zero =>
    intro m n s s' _ _ hrun
    exact absurd hrun (by simp [Q_Recursion_1K_2P])
  | succ fuel ih =>
    intro m n s s' hm hn hrun
    unfold Q_Recursion_1K_2P at hrun
    by_cases hle : m ≥ n
    · rw [if_pos hle, Option.some.injEq] at hrun
      rw [← hrun]
      exact SortsRange.of_le s hle
    rw [if_neg hle] at hrun
    by_cases htwo : m + 1 = n
    · have hsort := sortsRange_two s m
      rw [if_pos htwo, ← htwo, ← apply_ite some, Option.some.injEq] at hrun
      rw [← htwo, ← hrun]
      exact hsort
    rw [if_neg htwo] at hrun
    dsimp only at hrun
    obtain ⟨_, hmid⟩ | ⟨_, hneg⟩ := middle_cases hm (by omega) hn
    · rw [hmid, if_neg (by omega)] at hrun
      obtain ⟨π, r, hπ, hmr, hrn, hloop, hleft, hright, _⟩ :=
        partLoop_spec s (by omega : m < (m + n) / 2) (by omega : (m + n) / 2 < n)
      rw [hloop] at hrun
      have hl : (if (s.permute π).tKey_1 r < s.tKey_1 ((m + n) / 2) then r + 1 else r) ≤ r + 1 := by
        split <;> omega
      generalize hleq : (if (s.permute π).tKey_1 r < s.tKey_1 ((m + n) / 2) then r + 1 else r) = l
        at hrun hl
      obtain ⟨s₁, hrun₁, hrun₂⟩ := Option.bind_eq_some_iff.mp hrun
      have hsort₁ : SortsRange (s.permute π) s₁ m (l - 1) := by
        by_cases hlong : l - 1 > m
        · rw [if_pos hlong] at hrun₁
          exact ih hm (by omega) hrun₁
        · rw [if_neg hlong, Option.some.injEq] at hrun₁
          rw [← hrun₁]
          exact SortsRange.of_le _ (by omega)
      have hsort₂ : SortsRange s₁ s' r n := by
        by_cases hlong : r < n
        · rw [if_pos hlong] at hrun₂
          exact ih (by omega) hn hrun₂
        · rw [if_neg hlong, Option.some.injEq] at hrun₂
          rw [← hrun₂]
          exact SortsRange.of_le _ (by omega)
      obtain ⟨π₁, hπ₁, hs₁, hsorted₁⟩ := hsort₁
      obtain ⟨π₂, hπ₂, hs₂, hsorted₂⟩ := hsort₂
      rw [hs₁] at hsorted₁ hs₂
      rw [hs₂] at hsorted₂
      refine ⟨π * π₁ * π₂, (hπ.mul (hπ₁.mono (Int.le_refl m) (by omega))).mul
        (hπ₂.mono (by omega) (Int.le_refl n)), ?_, ?_⟩
      · rw [hs₂, Parallel.permute_permute, Parallel.permute_permute, mul_assoc]
      · rw [hs₂]
        exact sorted_of_parts hleq.symm hleft hright hπ₁ hsorted₁ hπ₂ hsorted₂
    · rw [if_pos hneg] at hrun
      exact absurd hrun (by simp)

/-- **The sort returns** on positions up to 2³⁰ (two neighbours need no middle
    position), and the depth of the recursion is at most the length of the range. -/
theorem Q_Recursion_1K_2P_returns (fuel : ℕ) : ∀ {m n : ℤ} (s : Parallel K P Q), 0 ≤ m → n ≤ 2 ^ 30 →
    n - m ≤ fuel → ∃ s', Q_Recursion_1K_2P (fuel + 1) m n s = some s' := by
  induction fuel with
  | zero =>
    intro m n s _ _ hfuel
    unfold Q_Recursion_1K_2P
    rw [if_pos (by omega)]
    exact ⟨s, rfl⟩
  | succ fuel ih =>
    intro m n s hm hn hfuel
    unfold Q_Recursion_1K_2P
    by_cases hle : m ≥ n
    · rw [if_pos hle]
      exact ⟨s, rfl⟩
    rw [if_neg hle]
    by_cases htwo : m + 1 = n
    · rw [if_pos htwo, ← apply_ite some]
      exact ⟨_, rfl⟩
    rw [if_neg htwo]
    dsimp only
    obtain ⟨_, hmid⟩ | ⟨hbad, _⟩ := middle_cases hm (by omega : m ≤ n) (by omega)
    · rw [hmid, if_neg (by omega)]
      obtain ⟨π, r, _, hmr, hrn, hloop, _, _, hshort⟩ :=
        partLoop_spec s (by omega : m < (m + n) / 2) (by omega : (m + n) / 2 < n)
      rw [hloop]
      dsimp only
      have hl : (if (s.permute π).tKey_1 r < s.tKey_1 ((m + n) / 2) then r + 1 else r) ≤ n := by
        by_cases hlt : (s.permute π).tKey_1 r < s.tKey_1 ((m + n) / 2)
        · have := hshort.resolve_right (not_le.mpr hlt)
          omega
        · rw [if_neg hlt]
          exact hrn
      generalize (if (s.permute π).tKey_1 r < s.tKey_1 ((m + n) / 2) then r + 1 else r) = l at hl ⊢
      have hleft : ∃ s₁, (if l - 1 > m then Q_Recursion_1K_2P (fuel + 1) m (l - 1) (s.permute π)
          else some (s.permute π)) = some s₁ := by
        by_cases hlong : l - 1 > m
        · rw [if_pos hlong]
          exact ih _ hm (by omega) (by omega)
        · rw [if_neg hlong]
          exact ⟨_, rfl⟩
      obtain ⟨s₁, hs₁⟩ := hleft
      rw [hs₁, Option.bind_some]
      by_cases hlong : r < n
      · rw [if_pos hlong]
        exact ih s₁ (by omega) hn (by omega)
      · rw [if_neg hlong]
        exact ⟨s₁, rfl⟩
    · omega

/-! ## §6. The search. -/

/-- **The search of a sorted range** below 2³⁰. -/
theorem searchRounds_spec {tKey : K} (k : ℕ) : ∀ {l r : ℤ}, 0 ≤ l → r < 2 ^ 30 →
    r - l + 1 ≤ k → SortedOn a l r → (∃ i, l ≤ i ∧ i ≤ r ∧ a i = tKey ∧ searchRounds a tKey k l r = some i) ∨
      (∀ i, l ≤ i → i ≤ r → a i ≠ tKey) ∧ searchRounds a tKey k l r = some (-1) := by
  induction k with
  | zero =>
    intro l r _ _ hk _
    exact Or.inr ⟨fun i hi hi' => absurd hi' (by omega), rfl⟩
  | succ k ih =>
    intro l r hl hr hk hsorted
    unfold searchRounds
    by_cases hle : l ≤ r
    · rw [if_pos hle]
      obtain ⟨_, hmid⟩ | ⟨hbad, _⟩ := middle_cases hl hle (by omega)
      · rw [hmid, if_neg (by omega)]
        by_cases hlt : a ((l + r) / 2) < tKey
        · rw [if_pos hlt]
          -- everything up to the middle is too small
          obtain ⟨i, hlo, hhi, heq, hrun⟩ | ⟨hnone, hrun⟩ := ih (by omega : 0 ≤ (l + r) / 2 + 1) hr
            (by omega) (hsorted.mono (by omega) (Int.le_refl r))
          · exact Or.inl ⟨i, by omega, hhi, heq, hrun⟩
          refine Or.inr ⟨?_, hrun⟩
          intro i hi hi'
          by_cases hside : i ≤ (l + r) / 2
          · exact ne_of_lt (lt_of_le_of_lt (hsorted i _ hi hside (by omega)) hlt)
          · exact hnone i (by omega) hi'
        rw [if_neg hlt]
        by_cases hgt : a ((l + r) / 2) > tKey
        · rw [if_pos hgt]
          obtain ⟨i, hlo, hhi, heq, hrun⟩ | ⟨hnone, hrun⟩ := ih hl (by omega : (l + r) / 2 - 1 < 2 ^ 30)
            (by omega) (hsorted.mono (Int.le_refl l) (by omega))
          · exact Or.inl ⟨i, hlo, by omega, heq, hrun⟩
          refine Or.inr ⟨?_, hrun⟩
          intro i hi hi'
          by_cases hside : (l + r) / 2 ≤ i
          · exact ne_of_gt (lt_of_lt_of_le hgt (hsorted _ i (by omega) hside hi'))
          · exact hnone i hi (by omega)
        · rw [if_neg hgt]
          exact Or.inl ⟨_, by omega, by omega, le_antisymm (not_lt.mp hgt) (not_lt.mp hlt), rfl⟩
      · omega
    · rw [if_neg hle]
      exact Or.inr ⟨fun i hi hi' => absurd hi' (by omega), rfl⟩

/-- The search finds the key if it is there. -/
theorem Q_Binary_Search_Default_spec (tKey : K) {l : ℤ} (hl : 0 ≤ l) (hr : r < 2 ^ 30)
    (hsorted : SortedOn a l r) :
    (∃ i, l ≤ i ∧ i ≤ r ∧ a i = tKey ∧ Q_Binary_Search_Default l r a tKey = some i) ∨
      (∀ i, l ≤ i → i ≤ r → a i ≠ tKey) ∧ Q_Binary_Search_Default l r a tKey = some (-1) := by
  unfold Q_Binary_Search_Default
  by_cases hgt : l > r
  · rw [if_pos hgt]
    exact Or.inr ⟨fun i hi hi' => absurd hi' (by omega), rfl⟩
  · rw [if_neg hgt]
    exact searchRounds_spec _ hl hr (by omega) hsorted

/-- **THE LAST KEY OF A LONG ARRAY**: the search for it gets to a range of one
    element at the latest, and then the sum is no `int32_t`. -/
theorem searchRounds_overflow (hr : 2 ^ 30 ≤ r) (hr' : r < 2 ^ 31) (hless : ∀ i, 0 ≤ i → i < r → a i < a r)
    (k : ℕ) : ∀ {l : ℤ}, 0 ≤ l → l ≤ r → r - l + 1 ≤ k → searchRounds a (a r) k l r = none := by
  induction k with
  | zero =>
    intro l hl hle hk
    omega
  | succ k ih =>
    intro l hl hle hk
    unfold searchRounds
    rw [if_pos hle]
    obtain ⟨hsum, hmid⟩ | ⟨_, hneg⟩ := middle_cases hl hle hr'
    · have hlt := hless ((l + r) / 2) (by omega) (by omega)
      rw [hmid, if_neg (by omega), if_pos hlt]
      exact ih (by omega) (by omega) (by omega)
    · rw [if_pos hneg]

/-- The search for the last key of a longer array reads outside of it. -/
theorem Q_Binary_Search_Default_overflow (hr : 2 ^ 30 ≤ r) (hr' : r < 2 ^ 31)
    (hless : ∀ i, 0 ≤ i → i < r → a i < a r) : Q_Binary_Search_Default 0 r a (a r) = none := by
  unfold Q_Binary_Search_Default
  rw [if_neg (by omega)]
  exact searchRounds_overflow hr hr' hless _ (Int.le_refl 0) (by omega) (by omega)

end KalavaPir.Common
