/-
  KalavaPir.Framework.StableRange — sorting a range of an array by keys.

  Elements with equal keys may stand in any order; a sort is stable if they keep
  the one they had.  Two sorts of one range may differ in nothing else.
-/
import KalavaPir.Framework.ArrayRange
import Mathlib.Data.Finset.Card

namespace KalavaPir.Framework

open Finset

variable {A K : Type} {key : A → K} {v v' v'' : ℤ → A} {m n : ℤ}

/-! ## §1. Permuted ranges. -/

/-- Only the elements from `m` to `n` have been permuted. -/
def Permuted (v v' : ℤ → A) (m n : ℤ) : Prop := ∃ π, Moves m n π ∧ v' = v ∘ π

theorem Permuted.refl (v : ℤ → A) (m n : ℤ) : Permuted v v m n := ⟨1, Moves.one m n, rfl⟩

theorem Permuted.trans (h : Permuted v v' m n) (h' : Permuted v' v'' m n) : Permuted v v'' m n := by
  obtain ⟨π, hπ, rfl⟩ := h
  obtain ⟨ρ, hρ, rfl⟩ := h'
  exact ⟨π * ρ, hπ.mul hρ, rfl⟩

theorem Permuted.symm (h : Permuted v v' m n) : Permuted v' v m n := by
  obtain ⟨π, hπ, rfl⟩ := h
  refine ⟨π.symm, hπ.symm, ?_⟩
  funext i
  show v i = v (π (π.symm i))
  rw [Equiv.apply_symm_apply]

theorem Permuted.mono {m' n' : ℤ} (h : Permuted v v' m n) (hm : m' ≤ m) (hn : n ≤ n') :
    Permuted v v' m' n' := by
  obtain ⟨π, hπ, heq⟩ := h
  exact ⟨π, hπ.mono hm hn, heq⟩

variable {i : ℤ}

variable {j : ℤ} {a : ℤ → K}

theorem Permuted.swap (v : ℤ → A) (hi : m ≤ i ∧ i ≤ n) (hj : m ≤ j ∧ j ≤ n) :
    Permuted v (v ∘ Equiv.swap i j) m n :=
  ⟨Equiv.swap i j, Moves.swap hi hj, rfl⟩

theorem Permuted.outside (h : Permuted v v' m n) (hi : i < m ∨ n < i) : v' i = v i := by
  obtain ⟨π, hπ, rfl⟩ := h
  show v (π i) = v i
  rw [hπ i hi]

theorem Permuted.inside (h : Permuted v v' m n) (hi : m ≤ i ∧ i ≤ n) : ∃ j, (m ≤ j ∧ j ≤ n) ∧ v' i = v j := by
  obtain ⟨π, hπ, rfl⟩ := h
  exact ⟨π i, hπ.inside hi, rfl⟩

theorem Permuted.find (h : Permuted v v' m n) (hi : m ≤ i ∧ i ≤ n) : ∃ j, (m ≤ j ∧ j ≤ n) ∧ v' j = v i := by
  obtain ⟨j, hj, heq⟩ := h.symm.inside hi
  exact ⟨j, hj, heq.symm⟩

/-- The swap of two elements. -/
def swapAt (v : ℤ → A) (i j : ℤ) : ℤ → A := Function.update (Function.update v i (v j)) j (v i)

theorem swapAt_eq (v : ℤ → A) (i j : ℤ) : swapAt v i j = v ∘ Equiv.swap i j :=
  update_update_eq_swap v i j

theorem swapAt_right (v : ℤ → A) (i j : ℤ) : swapAt v i j j = v i := Function.update_self _ _ _

theorem swapAt_left (v : ℤ → A) (i j : ℤ) : swapAt v i j i = v j := by
  rw [swapAt_eq]
  exact congrArg v (Equiv.swap_apply_left i j)

theorem swapAt_other (v : ℤ → A) {k : ℤ} (hi : k ≠ i) (hj : k ≠ j) : swapAt v i j k = v k := by
  rw [swapAt_eq]
  exact congrArg v (Equiv.swap_apply_of_ne_of_ne hi hj)

theorem Permuted.swapAt (v : ℤ → A) (hi : m ≤ i ∧ i ≤ n) (hj : m ≤ j ∧ j ≤ n) :
    Permuted v (swapAt v i j) m n := by
  rw [swapAt_eq]
  exact Permuted.swap v hi hj

theorem Permuted.forall_inside {p : A → Prop} (h : Permuted v v' m n)
    (hp : ∀ i, m ≤ i → i ≤ n → p (v i)) : ∀ i, m ≤ i → i ≤ n → p (v' i) := by
  intro i hlo hhi
  obtain ⟨j, hj, heq⟩ := h.inside ⟨hlo, hhi⟩
  rw [heq]
  exact hp j hj.1 hj.2

/-- **A range in three parts** is sorted when the outer ones are, and what is
    between them is equal. -/
theorem SortedOn.three [Preorder K] {mid : K} {l r : ℤ} (hleft : SortedOn a m l) (hright : SortedOn a r n)
    (hbelow : ∀ i, m ≤ i → i ≤ l → a i ≤ mid) (hmiddle : ∀ i, m ≤ i → l < i → i < r → a i = mid)
    (habove : ∀ i, r ≤ i → i ≤ n → mid ≤ a i) :
    SortedOn a m n := by
  intro i j hi hij hj
  by_cases hjl : j ≤ l
  · exact hleft i j hi hij hjl
  by_cases hri : r ≤ i
  · exact hright i j hri hij hj
  -- the middle is between the two
  have hlow : a i ≤ mid := by
    by_cases hil : i ≤ l
    · exact hbelow i hi hil
    · exact (hmiddle i hi (by omega) (by omega)).le
  refine le_trans hlow ?_
  by_cases hrj : r ≤ j
  · exact habove j hrj hj
  · exact (hmiddle j (by omega) (by omega) (by omega)).ge

theorem SortedOn.around [Preorder K] {r : ℤ} (hleft : SortedOn a m (r - 1)) (hright : SortedOn a (r + 1) n)
    (hbelow : ∀ i, m ≤ i → i < r → a i ≤ a r) (habove : ∀ i, r < i → i ≤ n → a r ≤ a i) : SortedOn a m n :=
  hleft.three hright (fun i hi hi' => hbelow i hi (by omega))
    (fun i _ hi hi' => by rw [show i = r by omega]) (fun i hi hi' => habove i (by omega) hi')

/-! ## §2. Stable sorts. -/

/-- Elements with equal keys keep their order. -/
def Stable (key : A → K) (v v' : ℤ → A) (m n : ℤ) : Prop :=
  ∃ π, Moves m n π ∧ v' = v ∘ π ∧
    ∀ i j, m ≤ i → i < j → j ≤ n → key (v' i) = key (v' j) → π i < π j

theorem Stable.permuted (h : Stable key v v' m n) : Permuted v v' m n := by
  obtain ⟨π, hπ, heq, -⟩ := h
  exact ⟨π, hπ, heq⟩

theorem Stable.refl (key : A → K) (v : ℤ → A) (m n : ℤ) : Stable key v v m n :=
  ⟨1, Moves.one m n, rfl, fun _ _ _ hij _ _ => hij⟩

/-- STABLE SORTS ARE MADE OF SWAPS of neighbours that are in the wrong order. -/
theorem Stable.trans (h : Stable key v v' m n) (h' : Stable key v' v'' m n) : Stable key v v'' m n := by
  obtain ⟨π, hπ, rfl, horder⟩ := h
  obtain ⟨ρ, hρ, rfl, horder'⟩ := h'
  refine ⟨π * ρ, hπ.mul hρ, rfl, fun i j hi hij hj hkey => ?_⟩
  have hlt : ρ i < ρ j := horder' i j hi hij hj hkey
  exact horder (ρ i) (ρ j) (hρ.inside ⟨hi, by omega⟩).1 hlt (hρ.inside ⟨by omega, hj⟩).2 hkey

/-- A range that is stable is so in a greater one. -/
theorem Stable.mono {m' n' : ℤ} (h : Stable key v v' m n) (hm : m' ≤ m) (hn : n ≤ n') :
    Stable key v v' m' n' := by
  obtain ⟨π, hπ, heq, horder⟩ := h
  refine ⟨π, hπ.mono hm hn, heq, fun i j hi hij hj hkey => ?_⟩
  by_cases hin : m ≤ i ∧ j ≤ n
  · exact horder i j hin.1 hij hin.2 hkey
  -- one of the two does not move, and the other one does not get past it
  · by_cases hmi : m ≤ i ∧ i ≤ n
    · have hfix : π j = j := hπ j (by omega)
      have hin' := hπ.inside hmi
      omega
    have hfix : π i = i := hπ i (by omega)
    by_cases hmj : m ≤ j ∧ j ≤ n
    · have hin' := hπ.inside hmj
      omega
    · have hfix' : π j = j := hπ j (by omega)
      omega

/-- **Neighbours with different keys** may be swapped. -/
theorem Stable.swap (v : ℤ → A) (hlo : m ≤ i) (hhi : i + 1 ≤ n) (hne : key (v i) ≠ key (v (i + 1))) :
    Stable key v (v ∘ Equiv.swap i (i + 1)) m n := by
  refine ⟨Equiv.swap i (i + 1), Moves.swap ⟨hlo, by omega⟩ ⟨by omega, hhi⟩, rfl, ?_⟩
  intro a b _ hab _ hkey
  by_cases hpair : a = i ∧ b = i + 1
  · obtain ⟨rfl, rfl⟩ := hpair
    refine absurd ?_ hne
    have hkey' : key (v (Equiv.swap a (a + 1) a)) = key (v (Equiv.swap a (a + 1) (a + 1))) := hkey
    rw [Equiv.swap_apply_left, Equiv.swap_apply_right] at hkey'
    exact hkey'.symm
  · rw [Equiv.swap_apply_def, Equiv.swap_apply_def]
    split_ifs <;> omega

/-! ## §3. How many elements of a range have a property. -/

section Counts

/-- The places of a range. -/
def places (m n : ℤ) : Finset ℤ := (Finset.range (n + 1 - m).toNat).image fun k : ℕ => m + k

theorem mem_places {i : ℤ} : i ∈ places m n ↔ m ≤ i ∧ i ≤ n := by
  unfold places
  rw [mem_image]
  constructor
  · rintro ⟨k, hk, rfl⟩
    rw [mem_range] at hk
    omega
  · exact fun h => ⟨(i - m).toNat, mem_range.mpr (by omega), by omega⟩

theorem card_places (m n : ℤ) : (places m n).card = (n + 1 - m).toNat := by
  have hinj : Function.Injective fun k : ℕ => m + k := by
    intro k l hkl
    have hcast : (k : ℤ) = l := Int.add_left_cancel hkl
    omega
  unfold places
  rw [card_image_of_injective _ hinj, card_range]

/-- How many elements of the range have the property. -/
def countIn (p : A → Prop) [DecidablePred p] (v : ℤ → A) (m n : ℤ) : ℕ :=
  ((places m n).filter fun i => p (v i)).card

variable {p : A → Prop} [DecidablePred p]

theorem countIn_congr {B : Type} {q : B → Prop} [DecidablePred q] {w : ℤ → B}
    (h : ∀ i, m ≤ i → i ≤ n → (p (v i) ↔ q (w i))) : countIn p v m n = countIn q w m n := by
  refine congrArg Finset.card (filter_congr fun i hi => ?_)
  rw [mem_places] at hi
  exact h i hi.1 hi.2

theorem countIn_empty (p : A → Prop) [DecidablePred p] (v : ℤ → A) (h : n < m) : countIn p v m n = 0 := by
  unfold countIn places
  rw [show (n + 1 - m).toNat = 0 by omega]
  rfl

theorem countIn_first (p : A → Prop) [DecidablePred p] (v : ℤ → A) (h : m ≤ n) :
    countIn p v m n = (if p (v m) then 1 else 0) + countIn p v (m + 1) n := by
  have hsplit : places m n = insert m (places (m + 1) n) := by
    ext i
    rw [mem_insert, mem_places, mem_places]
    omega
  have hnot : m ∉ (places (m + 1) n).filter fun i => p (v i) := by
    rw [mem_filter, mem_places]
    omega
  unfold countIn
  rw [hsplit, filter_insert]
  by_cases hp : p (v m)
  · rw [if_pos hp, if_pos hp, card_insert_of_notMem hnot, Nat.add_comm]
  · rw [if_neg hp, if_neg hp, Nat.zero_add]

theorem countIn_last (p : A → Prop) [DecidablePred p] (v : ℤ → A) (h : m ≤ n) :
    countIn p v m n = countIn p v m (n - 1) + if p (v n) then 1 else 0 := by
  have hsplit : places m n = insert n (places m (n - 1)) := by
    ext i
    rw [mem_insert, mem_places, mem_places]
    omega
  have hnot : n ∉ (places m (n - 1)).filter fun i => p (v i) := by
    rw [mem_filter, mem_places]
    omega
  unfold countIn
  rw [hsplit, filter_insert]
  by_cases hp : p (v n)
  · rw [if_pos hp, if_pos hp, card_insert_of_notMem hnot]
  · rw [if_neg hp, if_neg hp]
    rfl

theorem countIn_mono {n' : ℤ} (p : A → Prop) [DecidablePred p] (v : ℤ → A) (h : n ≤ n') :
    countIn p v m n ≤ countIn p v m n' := by
  refine card_le_card fun i hi => ?_
  rw [mem_filter, mem_places] at hi ⊢
  exact ⟨⟨hi.1.1, le_trans hi.1.2 h⟩, hi.2⟩

theorem countIn_between {n' : ℤ} (p : A → Prop) [DecidablePred p] (v : ℤ → A) (h : n ≤ n')
    (hno : ∀ i, n < i → i ≤ n' → ¬ p (v i)) : countIn p v m n' = countIn p v m n := by
  refine le_antisymm (card_le_card fun i hi => ?_) (countIn_mono p v h)
  rw [mem_filter, mem_places] at hi ⊢
  refine ⟨⟨hi.1.1, ?_⟩, hi.2⟩
  by_contra hbad
  exact hno i (by omega) hi.1.2 hi.2

theorem Permuted.countIn_eq (h : Permuted v v' m n) (p : A → Prop) [DecidablePred p] :
    countIn p v' m n = countIn p v m n := by
  obtain ⟨π, hπ, rfl⟩ := h
  refine card_equiv π fun i => ?_
  rw [mem_filter, mem_filter, mem_places, mem_places]
  refine and_congr ⟨hπ.inside, fun hin => ?_⟩ Iff.rfl
  have hback := hπ.symm.inside hin
  rwa [Equiv.symm_apply_apply] at hback

end Counts

/-! ## §4. The keys of a sorted range. -/

section Keys

variable [LinearOrder K]

/-- Where an element goes that is to stand behind all that are not greater. -/
theorem exists_place (x : K) (hmn : m ≤ n + 1) (hs : SortedOn (key ∘ v) m n) :
    ∃ p, m ≤ p ∧ p ≤ n + 1 ∧ (∀ j, m ≤ j → j < p → key (v j) ≤ x) ∧
      ∀ j, p ≤ j → j ≤ n → x < key (v j) := by
  induction hk : (n + 1 - m).toNat generalizing n with
  | zero => exact ⟨m, le_rfl, hmn, fun j hj hj' => by omega, fun j hj hj' => by omega⟩
  | succ k ih =>
    by_cases hle : key (v n) ≤ x
    · -- all of them are not greater
      refine ⟨n + 1, hmn, le_rfl, fun j hj hj' => ?_, fun j hj hj' => by omega⟩
      exact le_trans (hs j n hj (by omega) le_rfl) hle
    obtain ⟨p, hlo, hhi, hbelow, habove⟩ := ih (n := n - 1) (by omega)
      (hs.mono le_rfl (by omega)) (by omega)
    refine ⟨p, hlo, by omega, hbelow, fun j hj hj' => ?_⟩
    by_cases hlast : j = n
    · rw [hlast]
      exact not_le.mp hle
    · exact habove j hj (by omega)

/-- They are the elements in front of it. -/
theorem countIn_below {x : K} {p : ℤ} (hlo : m ≤ p) (hhi : p ≤ n + 1)
    (hbelow : ∀ j, m ≤ j → j < p → key (v j) ≤ x) (habove : ∀ j, p ≤ j → j ≤ n → x < key (v j)) :
    (countIn (fun a => key a ≤ x) v m n : ℤ) = p - m := by
  have heq : ((places m n).filter fun i => key (v i) ≤ x) = places m (p - 1) := by
    ext i
    rw [mem_filter, mem_places, mem_places]
    constructor
    · intro h
      refine ⟨h.1.1, ?_⟩
      by_contra hbad
      exact absurd h.2 (not_le.mpr (habove i (by omega) h.1.2))
    · exact fun h => ⟨⟨h.1, by omega⟩, hbelow i h.1 (by omega)⟩
  unfold countIn
  rw [heq, card_places]
  omega

/-- **THE KEYS OF A SORTED RANGE** are those of every other way to sort it. -/
theorem sorted_keys_unique (h : Permuted v v' m n) (h' : Permuted v v'' m n)
    (hs : SortedOn (key ∘ v') m n) (hs' : SortedOn (key ∘ v'') m n) : key ∘ v' = key ∘ v'' := by
  have hboth : Permuted v' v'' m n := h.symm.trans h'
  -- as many keys are at most the one of `i` on both sides
  have hle : ∀ {w w' : ℤ → A}, Permuted w w' m n → SortedOn (key ∘ w) m n → SortedOn (key ∘ w') m n →
      ∀ i, m ≤ i → i ≤ n → key (w' i) ≤ key (w i) := by
    intro w w' hw hsw hsw' i hlo hhi
    obtain ⟨p, hplo, hphi, hbelow, habove⟩ := exists_place (key (w i)) (by omega) hsw
    obtain ⟨p', hplo', hphi', hbelow', habove'⟩ := exists_place (key (w i)) (by omega) hsw'
    have hcard := hw.countIn_eq fun a => key a ≤ key (w i)
    have hp := countIn_below hplo hphi hbelow habove
    have hp' := countIn_below hplo' hphi' hbelow' habove'
    have hip : i < p := by
      by_contra hbad
      exact lt_irrefl _ (habove i (by omega) hhi)
    refine hbelow' i hlo ?_
    omega
  funext i
  by_cases hin : m ≤ i ∧ i ≤ n
  · exact le_antisymm (hle hboth.symm hs' hs i hin.1 hin.2) (hle hboth hs hs' i hin.1 hin.2)
  · show key (v' i) = key (v'' i)
    rw [h.outside (by omega), h'.outside (by omega)]

/-- The first elements of a sorted range are not above those of the array. -/
theorem SortedOn.first_le {x : K} {r : ℤ} (hs : SortedOn (key ∘ v') m n) (h : Permuted v v' m n)
    (hr : r ≤ n + 1) (hle : ∀ i, m ≤ i → i < r → key (v i) ≤ x) : ∀ i, m ≤ i → i < r → key (v' i) ≤ x := by
  intro i hi hi'
  obtain ⟨p, hlo, hhi, hbelow, habove⟩ := exists_place x (by omega) hs
  refine hbelow i hi ?_
  have hcount := countIn_below hlo hhi hbelow habove
  have hsub : (places m (r - 1)).card ≤ countIn (fun a => key a ≤ x) v m n := by
    refine card_le_card fun j hj => ?_
    rw [mem_places] at hj
    rw [mem_filter, mem_places]
    exact ⟨⟨hj.1, by omega⟩, hle j hj.1 (by omega)⟩
  rw [h.countIn_eq fun a => key a ≤ x] at hcount
  rw [card_places] at hsub
  omega

end Keys

/-! ## §5. Elements in their places. -/

section Places

variable [Preorder K] {a : ℤ → K} {p q : ℤ}

/-- The elements from `m` to `n` that are outside of the window from `p` to `q` are
    in their places: those in front of it are not greater than any that follow, and
    those behind it are not less than any before. -/
def PlacedOutside (a : ℤ → K) (m n p q : ℤ) : Prop :=
  ∀ i j, m ≤ i → i ≤ j → j ≤ n → i < p ∨ q < j → a i ≤ a j

theorem PlacedOutside.start (a : ℤ → K) (m n : ℤ) : PlacedOutside a m n m n :=
  fun i j hi hij hj hout => by omega

section

variable (h : PlacedOutside a m n p q)
include h

/-- What happens inside of the window does not matter. -/
theorem PlacedOutside.moved {π : Equiv.Perm ℤ} (hπ : Moves p q π) (hp : m ≤ p) (hq : q ≤ n) :
    PlacedOutside (a ∘ π) m n p q := by
  intro i j hi hij hj hout
  show a (π i) ≤ a (π j)
  by_cases hin : p ≤ i ∧ i ≤ q
  · -- then `j` is behind the window
    have hin' := hπ.inside hin
    rw [hπ j (by omega)]
    exact h (π i) j (by omega) (by omega) hj (by omega)
  rw [hπ i (by omega)]
  by_cases hjn : p ≤ j ∧ j ≤ q
  · have hin' := hπ.inside hjn
    exact h i (π j) hi (by omega) (by omega) (by omega)
  · rw [hπ j (by omega)]
    exact h i j hi hij hj hout

/-- **The least element** of the window is the next one in front. -/
theorem PlacedOutside.first (hmin : ∀ k, p ≤ k → k ≤ q → a p ≤ a k) : PlacedOutside a m n (p + 1) q := by
  intro i j hi hij hj hout
  by_cases hold : i < p ∨ q < j
  · exact h i j hi hij hj hold
  · rw [show i = p by omega]
    exact hmin j (by omega) (by omega)

/-- **The greatest element** of the window is the next one behind it. -/
theorem PlacedOutside.last (hmax : ∀ k, p ≤ k → k ≤ q → a k ≤ a q) : PlacedOutside a m n p (q - 1) := by
  intro i j hi hij hj hout
  by_cases hold : i < p ∨ q < j
  · exact h i j hi hij hj hold
  · rw [show j = q by omega]
    exact hmax i (by omega) (by omega)

theorem PlacedOutside.sorted (hs : SortedOn a p q) : SortedOn a m n := by
  intro i j hi hij hj
  by_cases hout : i < p ∨ q < j
  · exact h i j hi hij hj hout
  · exact hs i j (by omega) hij (by omega)

end

theorem SortedOn.of_neighbours (h : ∀ k, m < k → k ≤ n → a (k - 1) ≤ a k) : SortedOn a m n := by
  intro i j hi hij hj
  induction hk : (j - i).toNat generalizing j with
  | zero => rw [show j = i by omega]
  | succ k ih =>
    have hprev : a i ≤ a (j - 1) := ih (j - 1) (by omega) (by omega) (by omega)
    exact le_trans hprev (h j (by omega) hj)

end Places

/-! ## §6. Elements a gap apart. -/

section Gaps

variable [Preorder K] {a : ℤ → K} {gap hole : ℤ}

/-- Elements that are `gap` apart are in order. -/
def GapSorted (a : ℤ → K) (gap m n : ℤ) : Prop := ∀ k, m ≤ k → k + gap ≤ n → a k ≤ a (k + gap)

/-- The element at `hole` may have to go down. -/
structure GapSortedExcept (a : ℤ → K) (gap m n hole : ℤ) : Prop where
  except : ∀ k, m ≤ k → k + gap ≤ n → k + gap ≠ hole → a k ≤ a (k + gap)
  grand : m ≤ hole - gap → hole + gap ≤ n → a (hole - gap) ≤ a (hole + gap)

theorem GapSorted.of_lt (h : n < m + gap) : GapSorted a gap m n := fun k hk hk' => by omega

theorem GapSorted.sorted (h : GapSorted a 1 m n) : SortedOn a m n :=
  SortedOn.of_neighbours fun k hk hk' => by
    have hle := h (k - 1) (by omega) (by omega)
    rwa [show k - 1 + 1 = k by omega] at hle

theorem GapSorted.push (h : GapSorted a gap m (n - 1)) (hgap : 0 < gap) : GapSortedExcept a gap m n n where
  except := fun k hk hk' hne => h k hk (by omega)
  grand := fun _ hbad => by omega

theorem GapSortedExcept.settle (h : GapSortedExcept a gap m n hole)
    (hstop : m ≤ hole - gap → a (hole - gap) ≤ a hole) : GapSorted a gap m n := by
  intro k hk hk'
  by_cases heq : k + gap = hole
  · rw [heq, show k = hole - gap by omega]
    exact hstop (by omega)
  · exact h.except k hk hk' heq

/-- **A round downwards.** -/
theorem GapSortedExcept.swap {v : ℤ → A} (h : GapSortedExcept (key ∘ v) gap m n hole) (hgap : 0 < gap)
    (hlo : m ≤ hole - gap) (hhi : hole ≤ n) (hless : key (v hole) ≤ key (v (hole - gap))) :
    GapSortedExcept (key ∘ swapAt v (hole - gap) hole) gap m n (hole - gap) := by
  have hother : ∀ k, k ≠ hole - gap → k ≠ hole → key (swapAt v (hole - gap) hole k) = key (v k) :=
    fun k hk hk' => by rw [swapAt_other v hk hk']
  have hleft : key (swapAt v (hole - gap) hole (hole - gap)) = key (v hole) := by rw [swapAt_left]
  have hright : key (swapAt v (hole - gap) hole hole) = key (v (hole - gap)) := by rw [swapAt_right]
  refine ⟨fun k hk hk' hne => ?_, fun hlo' hhi' => ?_⟩
  · show key (swapAt v (hole - gap) hole k) ≤ key (swapAt v (hole - gap) hole (k + gap))
    by_cases hk1 : k = hole - gap
    · -- the two that have been swapped
      rw [hk1, show hole - gap + gap = hole by omega, hleft, hright]
      exact hless
    by_cases hk2 : k = hole
    · rw [hk2, hright, hother (hole + gap) (by omega) (by omega)]
      exact h.grand hlo (by omega)
    · rw [hother k hk1 hk2, hother (k + gap) hne (by omega)]
      exact h.except k hk hk' (by omega)
  · show key (swapAt v (hole - gap) hole (hole - gap - gap)) ≤
      key (swapAt v (hole - gap) hole (hole - gap + gap))
    rw [show hole - gap + gap = hole by omega, hright, hother _ (by omega) (by omega)]
    have hprev := h.except (hole - gap - gap) hlo' (by omega) (by omega)
    rwa [show hole - gap - gap + gap = hole - gap by omega] at hprev

end Gaps

end KalavaPir.Framework
