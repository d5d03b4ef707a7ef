/-
  KalavaPir.Framework.TopK — the best `k` of a bag of scored items.

  Sorting a bag and keeping a prefix is determined only up to the order of
  equal scores.  `TopK` says what every such prefix has in common, in terms of
  the bag alone; `TopK.keys_eq` says that this is enough to determine the
  SCORES, so nothing else about how the bag was collected or sorted can show.
-/
import Mathlib.Data.Multiset.Sort
import Mathlib.Algebra.Order.Sub.Basic
import Mathlib.Algebra.Order.Group.Multiset

namespace KalavaPir.Framework

open List

variable {α β : Type} [LinearOrder β] (key : α → β)

/-- `r` is a best-first list of `k` items of the bag (or of all of them, if
    there are fewer), and no item left out is better than one in it. -/
structure TopK [DecidableEq α] (k : ℕ) (bag : Multiset α) (r : List α) : Prop where
  length_eq : r.length = min k bag.card
  sorted : r.Pairwise (fun a b => key b ≤ key a)
  sub : (r : Multiset α) ≤ bag
  best : ∀ y ∈ bag - (r : Multiset α), ∀ x ∈ r, key y ≤ key x

variable {key}

theorem keys_eq_of_perm {l l' : List α} (hp : l.Perm l')
    (hs : l.Pairwise (fun a b => key b ≤ key a)) (hs' : l'.Pairwise (fun a b => key b ≤ key a)) :
    l.map key = l'.map key := by
  have hm : (l.map key).Pairwise (fun a b => b ≤ a) := pairwise_map.mpr hs
  have hm' : (l'.map key).Pairwise (fun a b => b ≤ a) := pairwise_map.mpr hs'
  exact (hp.map key).eq_of_pairwise (fun a b _ _ h₁ h₂ => le_antisymm h₂ h₁) hm hm'

variable [DecidableEq α]

variable {bag : Multiset α} {r : List α}

/-- **A prefix of a sorted arrangement is a `TopK`.** -/
theorem topK_take {l : List α} (k : ℕ) (hbag : (l : Multiset α) = bag)
    (hs : l.Pairwise (fun a b => key b ≤ key a)) : TopK key k bag (l.take k) := by
  have hsplit : (l : Multiset α) = (l.take k : Multiset α) + (l.drop k : Multiset α) := by
    rw [Multiset.coe_add, take_append_drop]
  subst hbag
  -- what is left out of the bag is what was dropped from the list
  refine ⟨by simp, hs.sublist (take_sublist k l), ?_, ?_⟩
  · rw [hsplit]
    exact Multiset.le_add_right _ _
  · intro y hy x hx
    rw [hsplit, add_tsub_cancel_left] at hy
    rw [← take_append_drop k l] at hs
    exact (pairwise_append.mp hs).2.2 x hx y (by simpa using hy)

variable {k : ℕ}

theorem TopK.of_min_eq {m : ℕ} (h : TopK key m bag r) (hmin : min m bag.card = min k bag.card) :
    TopK key k bag r :=
  ⟨h.length_eq.trans hmin, h.sorted, h.sub, h.best⟩

/-- Every `TopK` is a prefix of a sorted arrangement of the whole bag. -/
theorem TopK.extend (h : TopK key k bag r) : ∃ t : List α, ((r ++ t : List α) : Multiset α) = bag ∧
      (r ++ t).Pairwise (fun a b => key b ≤ key a) := by
  -- the items left out, best first
  obtain ⟨u, hu⟩ := Quot.exists_rep (bag - (r : Multiset α))
  have hu : (u : Multiset α) = bag - (r : Multiset α) := hu
  let le : α → α → Bool := fun a b => decide (key b ≤ key a)
  have hperm : (u.mergeSort le).Perm u := mergeSort_perm u le
  have hsort : (u.mergeSort le).Pairwise (fun a b => key b ≤ key a) := by
    have hle : (u.mergeSort le).Pairwise (fun a b => le a b = true) := pairwise_mergeSort
      (fun a b c h₁ h₂ => by
        simp only [le, decide_eq_true_eq] at *
        exact le_trans h₂ h₁)
      (fun a b => by
        simp only [le, Bool.or_eq_true, decide_eq_true_eq]
        exact le_total _ _) u
    exact hle.imp (fun h => by simpa [le] using h)
  have hmem : ((u.mergeSort le : List α) : Multiset α) = bag - (r : Multiset α) := by
    rw [← hu]
    exact Multiset.coe_eq_coe.mpr hperm
  refine ⟨u.mergeSort le, ?_, ?_⟩
  · rw [← Multiset.coe_add, hmem]
    exact add_tsub_cancel_of_le h.sub
  · refine pairwise_append.mpr ⟨h.sorted, hsort, fun x hx y hy => ?_⟩
    refine h.best y ?_ x hx
    rw [← hmem]
    simpa using hy

/-- **THE SCORES ARE DETERMINED BY THE BAG.** -/
theorem TopK.keys_eq {r' : List α} (h : TopK key k bag r) (h' : TopK key k bag r') :
    r.map key = r'.map key := by
  obtain ⟨t, ht, hs⟩ := h.extend
  obtain ⟨t', ht', hs'⟩ := h'.extend
  have hall : (r ++ t).map key = (r' ++ t').map key :=
    keys_eq_of_perm (Multiset.coe_eq_coe.mp (ht.trans ht'.symm)) hs hs'
  -- two sorted arrangements with equal scores, cut at the same length
  have hlen : r.length = r'.length := h.length_eq.trans h'.length_eq.symm
  simp only [map_append] at hall
  exact (append_inj hall (by simpa using hlen)).1

end KalavaPir.Framework
