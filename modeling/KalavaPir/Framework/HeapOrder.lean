/-
  KalavaPir.Framework.HeapOrder — binary heaps in the first cells of an array.

  The children of the cell `p` are `2p+1` and `2p+2`; `r` is total and transitive.
  While an element is on its way up or down, all pairs are in order but those it
  takes part in on that side, and its children are in order with its parent.
-/
import KalavaPir.Framework.ArrayPrefix
import Mathlib.Data.List.Nodup
import Mathlib.Logic.Equiv.Basic

namespace KalavaPir.Framework

open List Function

variable {A : Type} {r : A → A → Prop} {v : ℕ → A} {n : ℕ}

/-! ## §1. Orders. -/

/-- The children of a cell. -/
def IsChild (c p : ℕ) : Prop := c = 2 * p + 1 ∨ c = 2 * p + 2

/-- No child comes before its parent. -/
def HeapOrder (r : A → A → Prop) (v : ℕ → A) (n : ℕ) : Prop :=
  ∀ p c, IsChild c p → c < n → r (v p) (v c)

/-- The element at `hole` may have to go up. -/
structure UpOrder (r : A → A → Prop) (v : ℕ → A) (n hole : ℕ) : Prop where
  except : ∀ p c, IsChild c p → c < n → c ≠ hole → r (v p) (v c)
  grand : ∀ p c, IsChild hole p → IsChild c hole → c < n → r (v p) (v c)

/-- The element at `hole` may have to go down. -/
structure DownOrder (r : A → A → Prop) (v : ℕ → A) (n hole : ℕ) : Prop where
  except : ∀ p c, IsChild c p → c < n → p ≠ hole → r (v p) (v c)
  grand : ∀ p c, IsChild hole p → IsChild c hole → c < n → r (v p) (v c)

/-- The same from the cell `lo` on. -/
def HeapFrom (r : A → A → Prop) (v : ℕ → A) (n lo : ℕ) : Prop :=
  ∀ p c, lo ≤ p → IsChild c p → c < n → r (v p) (v c)

/-- The element at `hole` may have to go down, from the cell `lo` on. -/
structure DownFrom (r : A → A → Prop) (v : ℕ → A) (n lo hole : ℕ) : Prop where
  except : ∀ p c, lo ≤ p → IsChild c p → c < n → p ≠ hole → r (v p) (v c)
  grand : ∀ p c, lo ≤ p → IsChild hole p → IsChild c hole → c < n → r (v p) (v c)

variable {c i j : ℕ}

theorem IsChild.lt {p : ℕ} (h : IsChild c p) : p < c := by
  unfold IsChild at h
  omega

theorem IsChild.unique {p q : ℕ} (h : IsChild c p) (h' : IsChild c q) : p = q := by
  unfold IsChild at h h'
  omega

theorem exists_isChild (hc : c ≠ 0) : IsChild c ((c - 1) / 2) := by
  unfold IsChild
  omega

/-! ## §2. The ends of the rounds. -/

variable {hole : ℕ}

/-- A round upwards, and its end. -/
theorem UpOrder.settle (h : UpOrder r v n hole) (hstop : ∀ p, IsChild hole p → r (v p) (v hole)) :
    HeapOrder r v n := by
  intro p c hchild hc
  by_cases heq : c = hole
  · subst heq
    exact hstop p hchild
  · exact h.except p c hchild hc heq

/-- The same in a heap that is in order only from a cell on, as while it is built. -/
theorem DownFrom.settle {lo : ℕ} (h : DownFrom r v n lo hole)
    (hstop : ∀ c, IsChild c hole → c < n → r (v hole) (v c)) : HeapFrom r v n lo := by
  intro p c hp hchild hc
  by_cases heq : p = hole
  · subst heq
    exact hstop c hchild hc
  · exact h.except p c hp hchild hc heq

theorem HeapFrom.order (h : HeapFrom r v n 0) : HeapOrder r v n := fun p c => h p c (Nat.zero_le p)

theorem DownOrder.downFrom (h : DownOrder r v n hole) : DownFrom r v n 0 hole :=
  ⟨fun p c _ => h.except p c, fun p c _ => h.grand p c⟩

theorem DownOrder.settle (h : DownOrder r v n hole) (hstop : ∀ c, IsChild c hole → c < n → r (v hole) (v c)) :
    HeapOrder r v n :=
  (h.downFrom.settle hstop).order

theorem heapFrom_half (r : A → A → Prop) (v : ℕ → A) (n : ℕ) : HeapFrom r v n (n / 2) := by
  intro p c hp hchild hc
  unfold IsChild at hchild
  omega

theorem HeapFrom.down {lo : ℕ} (h : HeapFrom r v n (lo + 1)) : DownFrom r v n lo lo where
  except := fun p c hp hchild hc hne => h p c (by omega) hchild hc
  grand := fun p c hp hchild => by
    have := hchild.lt
    omega

theorem HeapOrder.push (h : HeapOrder r v n) (x : A) : UpOrder r (update v n x) (n + 1) n where
  except := by
    intro p c hchild hc hne
    have hp := hchild.lt
    rw [update_of_ne (by omega), update_of_ne hne]
    exact h p c hchild (by omega)
  grand := by
    intro p c _ hchild hc
    have := hchild.lt
    omega

theorem HeapOrder.replace_root (h : HeapOrder r v (n + 1)) (x : A) : DownOrder r (update v 0 x) n 0 where
  except := by
    intro p c hchild hc hne
    have hp := hchild.lt
    rw [update_of_ne hne, update_of_ne (by omega)]
    exact h p c hchild (by omega)
  grand := by
    intro p c hchild
    have := hchild.lt
    omega

/-! ## §3. A round. -/

theorem swap_apply_other {k : ℕ} (hi : k ≠ i) (hj : k ≠ j) : (v ∘ Equiv.swap i j) k = v k :=
  congrArg v (Equiv.swap_apply_of_ne_of_ne hi hj)

theorem swap_apply_fst (i j : ℕ) : (v ∘ Equiv.swap i j) i = v j :=
  congrArg v (Equiv.swap_apply_left i j)

theorem swap_apply_snd (i j : ℕ) : (v ∘ Equiv.swap i j) j = v i :=
  congrArg v (Equiv.swap_apply_right i j)

theorem update_update_hole (v : ℕ → A) (hij : j ≠ i) (x : A) :
    update (update v i (v j)) j x = update v i x ∘ Equiv.swap i j := by
  funext k
  by_cases hj : k = j
  · rw [hj, update_self, swap_apply_snd, update_self]
  rw [update_of_ne hj]
  by_cases hi : k = i
  · rw [hi, update_self, swap_apply_fst, update_of_ne hij]
  · rw [update_of_ne hi, swap_apply_other hi hj, update_of_ne hi]

/-- **A round keeps the contents.** -/
theorem cells_swap_perm (v : ℕ → A) (hi : i < n) (hj : j < n) :
    (cells (v ∘ Equiv.swap i j) n).Perm (cells v n) := by
  have hrange : ((List.range n).map (Equiv.swap i j)).Perm (List.range n) := by
    have hnodup : ((List.range n).map (Equiv.swap i j)).Nodup :=
      List.Nodup.map (Equiv.swap i j).injective nodup_range
    refine (perm_ext_iff_of_nodup hnodup nodup_range).mpr fun k => ?_
    rw [mem_map, mem_range]
    constructor
    · rintro ⟨l, hl, rfl⟩
      rw [mem_range] at hl
      rw [Equiv.swap_apply_def]
      split_ifs <;> omega
    · intro hk
      refine ⟨Equiv.swap i j k, ?_, Equiv.swap_apply_self i j k⟩
      rw [mem_range, Equiv.swap_apply_def]
      split_ifs <;> omega
  have hmap := hrange.map v
  rwa [map_map] at hmap

theorem cells_replace_root_perm (v : ℕ → A) (n : ℕ) :
    (v 0 :: cells (update v 0 (v n)) n).Perm (cells v (n + 1)) := by
  cases n with
  | zero => exact List.Perm.refl _
  | succ k =>
    have hrest : cells (fun i => update v 0 (v (k + 1)) (i + 1)) k
        = cells (fun i => v (i + 1)) k :=
      cells_congr fun i _ => update_of_ne (Nat.succ_ne_zero i) _ _
    rw [cells_succ_eq_cons, hrest, update_self, cells_succ_eq_cons v (k + 1), cells_succ]
    exact (perm_append_singleton _ _).symm.cons _

section Total

variable [Std.Total r] [IsTrans A r]

/-- Nothing comes before the root. -/
theorem HeapOrder.root_le (h : HeapOrder r v n) {i : ℕ} (hi : i < n) : r (v 0) (v i) := by
  induction i using Nat.strongRecOn with
  | _ i ih =>
    by_cases h0 : i = 0
    · rw [h0]
      exact (Std.Total.total (v 0) (v 0)).elim id id
    · have hchild := exists_isChild h0
      have hlt := hchild.lt
      exact IsTrans.trans _ _ _ (ih _ hlt (by omega)) (h _ i hchild hi)

variable {hole : ℕ}

/-- **A round upwards.** -/
theorem UpOrder.swap {p : ℕ} (h : UpOrder r v n hole) (hp : IsChild hole p) (hn : hole < n)
    (hless : ¬ r (v p) (v hole)) : UpOrder r (v ∘ Equiv.swap hole p) n p := by
  have hlt := hp.lt
  have hup : r (v hole) (v p) := (Std.Total.total (v hole) (v p)).resolve_right hless
  refine ⟨fun q c hchild hc hne => ?_, fun q c hq hchild hc => ?_⟩
  · have hqc := hchild.lt
    by_cases hch : c = hole
    · -- the old parent below the element
      subst hch
      rw [hchild.unique hp, swap_apply_fst, swap_apply_snd]
      exact hup
    rw [swap_apply_other (k := c) hch hne]
    by_cases hqp : q = p
    · rw [hqp, swap_apply_snd]
      exact IsTrans.trans _ _ _ hup (h.except p c (hqp ▸ hchild) hc hch)
    by_cases hqh : q = hole
    · rw [hqh, swap_apply_fst]
      exact h.grand p c hp (hqh ▸ hchild) hc
    · rw [swap_apply_other hqh hqp]
      exact h.except q c hchild hc hch
  · have hqp := hq.lt
    have hpc := hchild.lt
    have hqv : r (v q) (v p) := h.except q p hq (by omega) (by omega)
    rw [swap_apply_other (k := q) (by omega) (by omega)]
    by_cases hch : c = hole
    · rw [hch, swap_apply_fst]
      exact hqv
    · rw [swap_apply_other hch (by omega)]
      exact IsTrans.trans _ _ _ hqv (h.except p c hchild hc hch)

omit [IsTrans A r] in
/-- **A round downwards**, to a child that may come before the other. -/
theorem DownFrom.swap {lo c : ℕ} (h : DownFrom r v n lo hole) (hlo : lo ≤ hole) (hc : IsChild c hole)
    (hn : c < n) (hleast : ∀ d, IsChild d hole → d < n → r (v c) (v d)) (hless : ¬ r (v hole) (v c)) :
    DownFrom r (v ∘ Equiv.swap hole c) n lo c := by
  have hlt := hc.lt
  have hup : r (v c) (v hole) := (Std.Total.total (v c) (v hole)).resolve_right hless
  refine ⟨fun q d hq hchild hd hne => ?_, fun q d _ hq hchild hd => ?_⟩
  · have hqd := hchild.lt
    by_cases hqh : q = hole
    · subst hqh
      rw [swap_apply_fst]
      by_cases hdc : d = c
      · rw [hdc, swap_apply_snd]
        exact hup
      · rw [swap_apply_other (by omega) hdc]
        exact hleast d hchild hd
    rw [swap_apply_other (k := q) hqh hne]
    by_cases hdh : d = hole
    · subst hdh
      rw [swap_apply_fst]
      exact h.grand q c hq hchild hc hn
    have hdc : d ≠ c := by
      intro heq
      exact hqh ((heq ▸ hchild).unique hc)
    rw [swap_apply_other hdh hdc]
    exact h.except q d hq hchild hd hqh
  · rw [hq.unique hc] at *
    have hcd := hchild.lt
    rw [swap_apply_fst, swap_apply_other (by omega) (by omega)]
    exact h.except c d (by omega) hchild hd (by omega)

omit [IsTrans A r] in
/-- A round downwards, and its end. -/
theorem DownOrder.swap {c : ℕ} (h : DownOrder r v n hole) (hc : IsChild c hole) (hn : c < n)
    (hleast : ∀ d, IsChild d hole → d < n → r (v c) (v d)) (hless : ¬ r (v hole) (v c)) :
    DownOrder r (v ∘ Equiv.swap hole c) n c := by
  have hround := h.downFrom.swap (Nat.zero_le hole) hc hn hleast hless
  exact ⟨fun p c => hround.except p c (Nat.zero_le p), fun p c => hround.grand p c (Nat.zero_le p)⟩

end Total

end KalavaPir.Framework
