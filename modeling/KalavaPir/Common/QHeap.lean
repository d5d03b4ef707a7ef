/-
  KalavaPir.Common.QHeap — the heaps of `common/qheap.h`.

  `QMinHeap` and `QMaxHeap` are the same but for the comparisons: where one writes
  `<=` and `>` the other writes `>=` and `<`.  The functions below take the two
  comparisons, `le` and `gt`, as arguments.

  `siftDown` computes `j=2*j+1` in `int32_t` as soon as the hole is at `j`: from
  2^30 on that overflows, which is undefined.
-/
import KalavaPir.Common.Container
import KalavaPir.Framework.HeapOrder
import Mathlib.Data.List.Sort

namespace KalavaPir.Common

open KalavaPir.Framework List Function

/-- `QMinHeap<T_TYPE>` or `QMaxHeap<T_TYPE>`, with its elements inside the array. -/
structure QHeap (T : Type) where
  heap_ : ℕ → T
  size_ : ℕ
  max_size_ : ℕ
  size_le : size_ ≤ max_size_

namespace QHeap

variable {T : Type}

/-! ## §1. The operations. -/

/-- The constructor; `heap` is what the new array holds. -/
def new (heap : ℕ → T) (size : ℕ) : QHeap T := ⟨heap, 0, size, Nat.zero_le size⟩

/-- No element is left. -/
def empty (q : QHeap T) : Bool := q.size_ == 0

/-- No place is left. -/
def full (q : QHeap T) : Bool := q.size_ == q.max_size_

/-- All elements are dropped. -/
def clear (q : QHeap T) : QHeap T :=
  { q with
    size_ := 0
    size_le := Nat.zero_le _ }

section Operations

variable (le gt : T → T → Prop) [DecidableRel le] [DecidableRel gt]

/-- The loop of `siftUp`, with the hole at `j`. -/
def siftUp (heap : ℕ → T) (temp : T) (j : ℕ) : ℕ → T :=
  if 0 < j then
    if le (heap ((j - 1) / 2)) temp then update heap j temp
    else siftUp (update heap j (heap ((j - 1) / 2))) temp ((j - 1) / 2)
  else update heap j temp
termination_by j
decreasing_by omega

/-- `if(j<m&&heap_[j]>heap_[j+1]) j++;` -/
def pick (heap : ℕ → T) (m : ℤ) (j : ℕ) : ℕ :=
  if (j : ℤ) < m ∧ gt (heap j) (heap (j + 1)) then j + 1 else j

omit [DecidableRel gt] in
theorem le_pick [DecidableRel gt] (heap : ℕ → T) (m : ℤ) (j : ℕ) : j ≤ pick gt heap m j := by
  unfold pick
  split <;> omega

/-- The loop of `siftDown`, with the hole at `i`. -/
def siftDown (heap : ℕ → T) (temp : T) (m : ℤ) (i j : ℕ) : Option (ℕ → T) :=
  if (j : ℤ) ≤ m then
    if le temp (heap (pick gt heap m j)) then some (update heap i temp)
    else if IsInt32 (2 * pick gt heap m j + 1) then
      siftDown (update heap i (heap (pick gt heap m j))) temp m (pick gt heap m j)
        (2 * pick gt heap m j + 1)
    else none
  else some (update heap i temp)
termination_by (m + 1 - j).toNat
decreasing_by
  have := le_pick gt heap m j
  omega

/-- `heap_[size_]=x; siftUp(size_); size_++;` -/
def store (q : QHeap T) (x : T) (h : q.size_ < q.max_size_) : QHeap T where
  heap_ := siftUp le (update q.heap_ q.size_ x) x q.size_
  size_ := q.size_ + 1
  max_size_ := q.max_size_
  size_le := h

/-- `heap_[0]=heap_[size_-1]; size_--; siftDown(0, size_-1);` and the old
    `heap_[0]`. -/
def take (q : QHeap T) : Option (T × QHeap T) :=
  (siftDown le gt (update q.heap_ 0 (q.heap_ (q.size_ - 1))) (q.heap_ (q.size_ - 1))
      ((q.size_ : ℤ) - 2) 0 1).map fun heap =>
    (q.heap_ 0, {
      heap_ := heap
      size_ := q.size_ - 1
      max_size_ := q.max_size_
      size_le := (Nat.sub_le _ _).trans q.size_le })

/-- The calls of the class; a store behind the last cell is undefined. -/
def calls : Container (QHeap T) T where
  full q := some q.full
  empty := empty
  store q x := if h : q.size_ < q.max_size_ then some (store le q x h) else none
  take := take le gt
  clear := clear

end Operations

end QHeap

/-- The calls of `QMinHeap`. -/
def QMinHeap.calls (T : Type) [LinearOrder T] : Container (QHeap T) T :=
  QHeap.calls (fun a b => a ≤ b) (fun a b => a > b)

/-- The calls of `QMaxHeap`. -/
def QMaxHeap.calls (T : Type) [LinearOrder T] : Container (QHeap T) T :=
  QHeap.calls (fun a b => a ≥ b) (fun a b => a < b)

namespace QHeap

variable {T : Type}

/-! ## §2. The contents, and where an element sinks to. -/

section Contents

variable (le gt : T → T → Prop) [DecidableRel le] [DecidableRel gt]

/-- At most `cap` elements in order: a pop takes the first of them. -/
def inOrder (cap : ℕ) : Container (List T) T :=
  Container.bounded (fun x xs => xs.orderedInsert le x) Container.takeHead cap

/-- The heap is in order and holds the elements `xs`, which are listed in order. -/
structure Holds (n : ℕ) (q : QHeap T) (xs : List T) : Prop where
  max_size : q.max_size_ = n
  order : HeapOrder le q.heap_ q.size_
  perm : (cells q.heap_ q.size_).Perm xs
  sorted : xs.Pairwise le

/-- The child of `p` that comes first, in the cells up to `m`. -/
def firstChild (heap : ℕ → T) (m : ℤ) (p : ℕ) : ℕ := pick gt heap m (2 * p + 1)

/-- `k` steps from `p` down along first children. -/
def descend (heap : ℕ → T) (m : ℤ) : ℕ → ℕ → ℕ
  | p, 0 => p
  | p, k + 1 => descend heap m (firstChild gt heap m p) k

/-- `temp` sinks from `p` to a cell at 2^30 or behind it: all cells on the way are in
    use, and their elements come before `temp`. -/
def SinksFrom (heap : ℕ → T) (m : ℤ) (temp : T) (p : ℕ) : Prop :=
  ∃ k, 2 ^ 30 ≤ descend gt heap m p (k + 1) ∧
    ∀ l ≤ k, (descend gt heap m p (l + 1) : ℤ) ≤ m ∧ ¬ le temp (heap (descend gt heap m p (l + 1)))

/-- A pop lets the last element sink that deep. -/
def Sinks (q : QHeap T) : Prop :=
  SinksFrom le gt q.heap_ ((q.size_ : ℤ) - 2) (q.heap_ (q.size_ - 1)) 0

/-- The call is no pop that lets its element sink that deep. -/
def Shallow (q : QHeap T) (_ : List T) (c : Container.Call T) : Prop :=
  c.takes = true → ¬ Sinks le gt q

end Contents

/-! ## §3. `siftUp` and `siftDown`. -/

section Sift

variable {le gt : T → T → Prop} [DecidableRel le] [DecidableRel gt] [Std.Total le] [IsTrans T le]

variable {heap : ℕ → T} {temp : T}

omit [DecidableRel gt] in
/-- **`siftUp` ends in heap order with the same contents.** -/
theorem siftUp_spec {n j : ℕ} (hj : j < n) (horder : UpOrder le (update heap j temp) n j) :
    HeapOrder le (siftUp le heap temp j) n ∧
      (cells (siftUp le heap temp j) n).Perm (cells (update heap j temp) n) := by
  induction j using Nat.strongRecOn generalizing heap with
  | _ j ih =>
    unfold siftUp
    split_ifs with hpos hstop
    · refine ⟨horder.settle fun p hp => ?_, List.Perm.refl _⟩
      have heq : p = (j - 1) / 2 := hp.unique (exists_isChild (by omega))
      have hlt := hp.lt
      rw [update_self, update_of_ne (by omega), heq]
      exact hstop
    -- the parent comes down into the hole, which goes up
    · have hchild : IsChild j ((j - 1) / 2) := exists_isChild (by omega)
      have hlt := hchild.lt
      have hne : (j - 1) / 2 ≠ j := by omega
      have hround := update_update_hole heap hne temp
      have hless : ¬ le (update heap j temp ((j - 1) / 2)) (update heap j temp j) := by
        rw [update_self, update_of_ne hne]
        exact hstop
      have hup := horder.swap hchild hj hless
      rw [← hround] at hup
      have hnext := ih _ hlt (by omega) hup
      refine ⟨hnext.1, hnext.2.trans ?_⟩
      rw [hround]
      exact cells_swap_perm _ hj (by omega)
    -- the root has no parent
    · refine ⟨horder.settle fun p hp => ?_, List.Perm.refl _⟩
      have := hp.lt
      omega

omit [DecidableRel le] [IsTrans T le] in
/-- The first child is a child, and the other does not come before it. -/
theorem firstChild_spec (hgt : ∀ a b, gt a b ↔ ¬ le a b) (heap : ℕ → T) {m : ℤ} {p : ℕ}
    (hp : ((2 * p + 1 : ℕ) : ℤ) ≤ m) : IsChild (firstChild gt heap m p) p ∧ (firstChild gt heap m p : ℤ) ≤ m ∧
      ∀ d, IsChild d p → (d : ℤ) ≤ m → le (heap (firstChild gt heap m p)) (heap d) := by
  unfold firstChild pick IsChild
  split_ifs with hnext
  · obtain ⟨hlt, hafter⟩ := hnext
    have hless : le (heap (2 * p + 1 + 1)) (heap (2 * p + 1)) :=
      (Std.Total.total _ _).resolve_left ((hgt _ _).mp hafter)
    refine ⟨Or.inr rfl, by omega, fun d hd _ => ?_⟩
    obtain rfl | rfl := hd
    · exact hless
    · exact (Std.Total.total (heap (2 * p + 1 + 1)) _).elim id id
  · refine ⟨Or.inl rfl, hp, fun d hd hm => ?_⟩
    obtain rfl | rfl := hd
    · exact (Std.Total.total (heap (2 * p + 1)) _).elim id id
    · by_contra hless
      exact hnext ⟨by omega, (hgt _ _).mpr hless⟩

/-- **`siftDown` ends in heap order with the same contents**, if it ends. -/
theorem siftDown_spec (hgt : ∀ a b, gt a b ↔ ¬ le a b) {heap' : ℕ → T} {n i : ℕ} (hi : n = 0 ∨ i < n)
    (horder : DownOrder le (update heap i temp) n i)
    (hsift : siftDown le gt heap temp ((n : ℤ) - 1) i (2 * i + 1) = some heap') :
    HeapOrder le heap' n ∧ (cells heap' n).Perm (cells (update heap i temp) n) := by
  -- induction on the cells behind the hole
  generalize hd : n - i = d
  induction d using Nat.strongRecOn generalizing heap i with
  | _ d ih =>
    rw [siftDown] at hsift
    split_ifs at hsift with hm hstop hint
    · obtain ⟨hchild, hle, hleast⟩ := firstChild_spec hgt heap hm
      cases hsift
      refine ⟨horder.settle fun c hc hn => ?_, List.Perm.refl _⟩
      have hlt := hc.lt
      rw [update_self, update_of_ne (by omega)]
      exact IsTrans.trans _ _ _ hstop (hleast c hc (by omega))
    · obtain ⟨hchild, hle, hleast⟩ := firstChild_spec hgt heap hm
      -- the first child goes up into the hole, which goes down
      rw [← firstChild] at hsift hstop
      generalize firstChild gt heap ((n : ℤ) - 1) i = c at *
      have hlt := hchild.lt
      have hne : c ≠ i := by omega
      have hround := update_update_hole heap hne temp
      have hleast' : ∀ d, IsChild d i → d < n →
          le (update heap i temp c) (update heap i temp d) := by
        intro d hd hn
        have hid := hd.lt
        rw [update_of_ne hne, update_of_ne (by omega)]
        exact hleast d hd (by omega)
      have hless : ¬ le (update heap i temp i) (update heap i temp c) := by
        rw [update_self, update_of_ne hne]
        exact hstop
      have hdown := horder.swap hchild (by omega) hleast' hless
      rw [← hround] at hdown
      have hnext := ih (n - c) (by omega) (by omega) hdown hsift rfl
      refine ⟨hnext.1, hnext.2.trans ?_⟩
      rw [hround]
      exact cells_swap_perm _ (by omega) (by omega)
    -- no child is left
    · cases hsift
      refine ⟨horder.settle fun c hc hn => ?_, List.Perm.refl _⟩
      unfold IsChild at hc
      omega

omit [DecidableRel le] [Std.Total le] [IsTrans T le] in
theorem sinksFrom_iff (heap : ℕ → T) (m : ℤ) (temp : T) (p : ℕ) :
    SinksFrom le gt heap m temp p ↔ (firstChild gt heap m p : ℤ) ≤ m ∧
      ¬ le temp (heap (firstChild gt heap m p)) ∧
        (2 ^ 30 ≤ firstChild gt heap m p ∨ SinksFrom le gt heap m temp (firstChild gt heap m p)) := by
  constructor
  · rintro ⟨k, hdeep, hway⟩
    obtain ⟨hle, hless⟩ := hway 0 (Nat.zero_le k)
    refine ⟨hle, hless, ?_⟩
    cases k with
    | zero => exact Or.inl hdeep
    | succ k => exact Or.inr ⟨k, hdeep, fun l hl => hway (l + 1) (by omega)⟩
  · rintro ⟨hle, hless, hdeep | ⟨k, hdeep, hway⟩⟩
    · refine ⟨0, hdeep, fun l hl => ?_⟩
      rw [Nat.le_zero.mp hl]
      exact ⟨hle, hless⟩
    · refine ⟨k + 1, hdeep, fun l hl => ?_⟩
      cases l with
      | zero => exact ⟨hle, hless⟩
      | succ l => exact hway l (by omega)

omit [Std.Total le] [IsTrans T le] in
/-- **When `siftDown` overflows.**  The cells behind the hole are those of `heap₀`. -/
theorem siftDown_eq_none_iff {heap₀ : ℕ → T} {m : ℤ} {i : ℕ} (hsame : ∀ k, i < k → heap k = heap₀ k) :
    siftDown le gt heap temp m i (2 * i + 1) = none ↔ SinksFrom le gt heap₀ m temp i := by
  -- induction on the cells behind the hole
  generalize hd : (m - i).toNat = d
  induction d using Nat.strongRecOn generalizing heap i with
  | _ d ih =>
    have hfirst : pick gt heap m (2 * i + 1) = firstChild gt heap₀ m i := by
      unfold firstChild pick
      rw [hsame (2 * i + 1) (by omega), hsame (2 * i + 1 + 1) (by omega)]
    have hlow : 2 * i + 1 ≤ firstChild gt heap₀ m i := le_pick gt heap₀ m (2 * i + 1)
    rw [siftDown, sinksFrom_iff, hfirst, hsame (firstChild gt heap₀ m i) (by omega)]
    generalize hc : firstChild gt heap₀ m i = c at *
    -- the position of the next child is what overflows
    have hint : IsInt32 (2 * c + 1) ↔ ¬ 2 ^ 30 ≤ c := by
      unfold IsInt32 INT32_MIN INT32_MAX
      omega
    by_cases hm : ((2 * i + 1 : ℕ) : ℤ) ≤ m
    · have hcm : (c : ℤ) ≤ m := by
        rw [← hc]
        unfold firstChild pick
        split_ifs <;> omega
      rw [if_pos hm]
      by_cases hstop : le temp (heap₀ c)
      · rw [if_pos hstop]
        exact iff_of_false (by simp) (fun h => h.2.1 hstop)
      rw [if_neg hstop]
      by_cases hdeep : 2 ^ 30 ≤ c
      · rw [if_neg (mt hint.mp (not_not.mpr hdeep))]
        exact iff_of_true rfl ⟨hcm, hstop, Or.inl hdeep⟩
      rw [if_pos (hint.mpr hdeep), ih (m - c).toNat (by omega) ?_ rfl]
      · exact ⟨fun h => ⟨hcm, hstop, Or.inr h⟩, fun h => h.2.2.resolve_left hdeep⟩
      -- the round has written in front of the new hole only
      · intro k hk
        rw [update_of_ne (by omega), hsame k (by omega)]
    · rw [if_neg hm]
      exact iff_of_false (by simp) (fun h => by have := h.1; omega)

end Sift

/-! ## §4. Each call. -/

section Calls

variable {le gt : T → T → Prop} [DecidableRel le] [DecidableRel gt] [Std.Total le] [IsTrans T le]
variable {n : ℕ} {q : QHeap T} {xs : List T}

omit [DecidableRel le] [Std.Total le] [IsTrans T le] in
theorem Holds.size_eq (h : Holds le n q xs) : q.size_ = xs.length := by
  rw [← h.perm.length_eq, length_cells]

omit [DecidableRel gt] in
theorem Holds.store (h : Holds le n q xs) (x : T) (hroom : q.size_ < q.max_size_) :
    Holds le n (QHeap.store le q x hroom) (xs.orderedInsert le x) := by
  have hup := h.order.push x
  have hself : update (update q.heap_ q.size_ x) q.size_ x
      = update q.heap_ q.size_ x := update_idem x x q.heap_
  obtain ⟨horder, hperm⟩ := siftUp_spec (Nat.lt_succ_self q.size_) (hself.symm ▸ hup)
  refine ⟨h.max_size, horder, ?_, h.sorted.orderedInsert x xs⟩
  rw [hself, cells_update_self] at hperm
  refine hperm.trans (List.Perm.trans ?_ (perm_orderedInsert le x xs).symm)
  exact (perm_append_singleton x _).trans (h.perm.cons x)

omit [DecidableRel le] in
/-- The root is the first in order. -/
theorem Holds.root_eq [Std.Antisymm le] {x : T} (h : Holds le n q (x :: xs)) : q.heap_ 0 = x := by
  have hpos : 0 < q.size_ := by
    rw [h.size_eq]
    exact Nat.succ_pos _
  -- the root is before `x`, and `x`, the first in order, before the root
  have hroot : q.heap_ 0 ∈ x :: xs := h.perm.mem_iff.mp (mem_cells.mpr ⟨0, hpos, rfl⟩)
  obtain ⟨i, hi, hx⟩ := mem_cells.mp (h.perm.mem_iff.mpr (mem_cons_self (a := x) (l := xs)))
  have hbefore : le (q.heap_ 0) x := by
    rw [← hx]
    exact h.order.root_le hi
  rcases mem_cons.mp hroot with heq | hin
  · exact heq
  · exact Std.Antisymm.antisymm _ _ hbefore ((pairwise_cons.mp h.sorted).1 _ hin)

/-- The contents without the root. -/
theorem Holds.take [Std.Antisymm le] (hgt : ∀ a b, gt a b ↔ ¬ le a b) {x : T}
    (h : Holds le n q (x :: xs)) (hshallow : ¬ Sinks le gt q) :
    ∃ q', QHeap.take le gt q = some (x, q') ∧ Holds le n q' xs := by
  have hsize : q.size_ = q.size_ - 1 + 1 := by
    rw [h.size_eq]
    rfl
  have hroot := h.root_eq
  have hm : (q.size_ : ℤ) - 2 = ((q.size_ - 1 : ℕ) : ℤ) - 1 := by omega
  have horder : HeapOrder le q.heap_ (q.size_ - 1 + 1) := hsize ▸ h.order
  have hperm : (cells q.heap_ (q.size_ - 1 + 1)).Perm (x :: xs) := hsize ▸ h.perm
  have hself := update_idem (q.heap_ (q.size_ - 1)) (q.heap_ (q.size_ - 1)) q.heap_ (a := 0)
  -- the overflow is the only way not to end
  have hends : siftDown le gt (update q.heap_ 0 (q.heap_ (q.size_ - 1)))
      (q.heap_ (q.size_ - 1)) ((q.size_ : ℤ) - 2) 0 1 ≠ none := by
    intro hnone
    refine hshallow ((siftDown_eq_none_iff fun k hk => ?_).mp hnone)
    exact update_of_ne (by omega) _ _
  obtain ⟨heap, hheap⟩ := Option.ne_none_iff_exists'.mp hends
  have hdown := horder.replace_root (q.heap_ (q.size_ - 1))
  obtain ⟨horder', hperm'⟩ := siftDown_spec hgt (by omega) (hself.symm ▸ hdown) (hm ▸ hheap)
  unfold QHeap.take
  rw [hheap, Option.map_some, hroot]
  refine ⟨_, rfl, h.max_size, horder', hperm'.trans ?_, h.sorted.of_cons⟩
  rw [hself]
  have hreplace := (cells_replace_root_perm q.heap_ (q.size_ - 1)).trans hperm
  -- the cells with the root are `x` and `xs`
  rw [hroot] at hreplace
  exact hreplace.cons_inv

variable {c : Container.Call T}

/-- **EACH CALL TAKES THE FIRST IN ORDER**, if it is shallow. -/
theorem step_matched [Std.Antisymm le] (hgt : ∀ a b, gt a b ↔ ¬ le a b) (h : Holds le n q xs)
    (hshallow : Shallow le gt q xs c) :
    Matched (Holds le n) ((calls le gt).step q c) ((inOrder le n).step xs c) := by
  have hsize := h.size_eq
  have hfull : (calls le gt).full q = (inOrder le n).full xs := by
    show some (q.size_ == q.max_size_) = some (xs.length == n)
    rw [hsize, h.max_size]
  have hempty : (calls le gt).empty q = (inOrder le n).empty xs := by
    show (q.size_ == 0) = (xs.length == 0)
    rw [hsize]
  have hclear : Holds le n q.clear [] :=
    ⟨h.max_size, fun p c _ hc => absurd hc (Nat.not_lt_zero c), List.Perm.refl _, List.Pairwise.nil⟩
  refine Container.step_matched h hfull hempty hclear ?_ c ?_
  · intro x hroom
    have hne : xs.length ≠ n := Container.bounded_room hroom
    have hlt : q.size_ < q.max_size_ := by
      have hle := q.size_le
      rw [h.max_size] at hle ⊢
      omega
    exact ⟨_, _, dif_pos hlt, rfl, h.store x hlt⟩
  · intro htakes hsome
    cases xs with
    | nil => exact absurd rfl (Container.bounded_some hsome)
    | cons x xs =>
      obtain ⟨q', htake, hrest⟩ := h.take hgt (hshallow htakes)
      exact ⟨x, q', xs, htake, rfl, hrest⟩

omit [Std.Total le] [IsTrans T le] in
/-- **A call that is not shallow overflows.** -/
theorem not_step_matched (h : Holds le n q xs) (hdeep : ¬ Shallow le gt q xs c) :
    ¬ Matched (Holds le n) ((calls le gt).step q c) ((inOrder le n).step xs c) := by
  unfold Shallow at hdeep
  push Not at hdeep
  obtain ⟨htakes, hsinks⟩ := hdeep
  have hsame : ∀ k, 0 < k →
      update q.heap_ 0 (q.heap_ (q.size_ - 1)) k = q.heap_ k :=
    fun k hk => update_of_ne (by omega) _ _
  have hnone : QHeap.take le gt q = none := by
    unfold QHeap.take
    rw [Option.map_eq_none_iff]
    exact (siftDown_eq_none_iff hsame).mpr hsinks
  cases xs with
  | nil =>
    -- nothing sinks in the empty heap
    obtain ⟨k, -, hway⟩ := hsinks
    have hle := (hway 0 (Nat.zero_le k)).1
    have hzero := h.size_eq
    rw [length_nil] at hzero
    omega
  | cons x xs =>
    have hfalse : ((x :: xs).length == 0) = false := rfl
    refine Container.not_step_matched htakes ?_ hfalse hnone rfl
    show (q.size_ == 0) = false
    rw [h.size_eq, hfalse]

end Calls

/-! ## §5. Histories. -/

theorem new_holds (le : T → T → Prop) (heap : ℕ → T) (n : ℕ) : Holds le n (new heap n) [] :=
  ⟨rfl, fun _ c _ hc => absurd hc (Nat.not_lt_zero c), List.Perm.refl _, List.Pairwise.nil⟩

theorem history_inOrder_iff (le gt : T → T → Prop) [DecidableRel le] [DecidableRel gt]
    [Std.Total le] [IsTrans T le] [Std.Antisymm le] (hgt : ∀ a b, gt a b ↔ ¬ le a b) (heap : ℕ → T)
    (n : ℕ) (cs : List (Container.Call T)) :
    (∀ k, Matched (Holds le n) (history (calls le gt).step (new heap n) (cs.take k))
        (history (inOrder le n).step [] (cs.take k))) ↔
      Calls (calls le gt).step (inOrder le n).step (Shallow le gt) (new heap n) [] cs := by
  refine matched_iff_calls (G := fun _ _ _ => True) (fun _ _ => True) ?_ ?_ (new_holds le heap n)
    trivial ?_
  · intro q xs c h _ _ hshallow
    exact (step_matched hgt h hshallow).mono fun _ _ h => ⟨h, trivial⟩
  · intro q xs c h _ _ hdeep
    exact not_step_matched h hdeep
  · exact Calls.of_invariant (fun _ => True) (fun _ _ _ _ _ _ => trivial) (fun _ _ _ _ => trivial) cs
      _ _ trivial

/-- **BOTH HEAPS, OVER EVERY HISTORY.** -/
theorem heaps_history_iff [LinearOrder T] (heap : ℕ → T) (n : ℕ) (cs : List (Container.Call T)) :
    ((∀ k, Matched (Holds (fun a b => a ≤ b) n)
          (history (QMinHeap.calls T).step (new heap n) (cs.take k))
          (history (inOrder (fun a b => a ≤ b) n).step [] (cs.take k))) ↔
        Calls (QMinHeap.calls T).step (inOrder (fun a b => a ≤ b) n).step
          (Shallow (fun a b => a ≤ b) (fun a b => a > b)) (new heap n) [] cs) ∧
      ((∀ k, Matched (Holds (fun a b => a ≥ b) n)
          (history (QMaxHeap.calls T).step (new heap n) (cs.take k))
          (history (inOrder (fun a b => a ≥ b) n).step [] (cs.take k))) ↔
        Calls (QMaxHeap.calls T).step (inOrder (fun a b => a ≥ b) n).step
          (Shallow (fun a b => a ≥ b) (fun a b => a < b)) (new heap n) [] cs) :=
  ⟨history_inOrder_iff _ _ (fun _ _ => not_le.symm) heap n cs,
    history_inOrder_iff _ _ (fun _ _ => not_le.symm) heap n cs⟩

/-! ## §6. A pop that overflows. -/

/-- The pushes of `f 0`, …, `f (k−1)`. -/
def pushes (f : ℕ → ℕ) (k : ℕ) : List (Container.Call ℕ) := (List.range k).map fun i => .push (f i)

/-- Pushes in heap order leave the elements where they are stored. -/
theorem history_pushes {f : ℕ → ℕ} {n : ℕ} (horder : HeapOrder (fun a b => a ≤ b) f n) {k : ℕ} (hk : k ≤ n) :
    ∃ as q xs, history (QMinHeap.calls ℕ).step (new f n) (pushes f k) = .ok (as, q) ∧
      history (inOrder (fun a b => a ≤ b) n).step [] (pushes f k) = .ok (as, xs) ∧
      Holds (fun a b => a ≤ b) n q xs ∧ xs.length = k ∧ q.heap_ = f := by
  induction k with
  | zero => exact ⟨[], _, [], rfl, rfl, new_holds _ f n, rfl, rfl⟩
  | succ k ih =>
    obtain ⟨as, q, xs, hs, ht, h, hlength, hheap⟩ := ih (by omega)
    have hsize : q.size_ = k := h.size_eq.trans hlength
    have hroom : q.size_ < q.max_size_ := by
      rw [hsize, h.max_size]
      exact hk
    have hstep : (QMinHeap.calls ℕ).step q (.push (f k))
        = .ok ({}, QHeap.store (fun a b => a ≤ b) q (f k) hroom) := by
      have hfull : q.full = false := beq_eq_false_iff_ne.mpr (Nat.ne_of_lt hroom)
      show Container.pushWith _ _ _ _ = _
      unfold Container.pushWith
      rw [show (QMinHeap.calls ℕ).full q = some q.full from rfl, hfull, checked_some,
        show (QMinHeap.calls ℕ).store q (f k) = _ from dif_pos hroom]
      rfl
    have hspec : (inOrder (fun a b => a ≤ b) n).step xs (.push (f k))
        = .ok ({}, xs.orderedInsert (fun a b => a ≤ b) (f k)) := by
      have hfull : (xs.length == n) = false := beq_eq_false_iff_ne.mpr (by omega)
      show Container.pushWith _ _ _ _ = _
      unfold Container.pushWith
      rw [show (inOrder (fun a b : ℕ => a ≤ b) n).full xs = some (xs.length == n) from rfl, hfull]
      rfl
    refine ⟨as ++ [({} : Container.Answer ℕ)], _, _, ?_, ?_, h.store (f k) hroom, ?_, ?_⟩
    · rw [pushes, range_succ, map_append]
      exact history_concat hs hstep
    · rw [pushes, range_succ, map_append]
      exact history_concat ht hspec
    · rw [orderedInsert_length, hlength]
    -- the new element is where it belongs, so that no cell changes
    · show siftUp _ (update q.heap_ q.size_ (f k)) (f k) q.size_ = f
      have hself : update f k (f k) = f := update_eq_self k f
      rw [hheap, hsize, hself, siftUp]
      split_ifs with hpos hstop
      · exact hself
      · exact absurd (horder _ k (exists_isChild (by omega)) (by omega)) hstop
      · exact hself

/-- The numbers in order, but for two neighbours: 2^30 − 1 and 2^30. -/
def late : ℕ → ℕ := Equiv.swap (2 ^ 30 - 1) (2 ^ 30)

theorem late_of_lt {i : ℕ} (hi : i < 2 ^ 30 - 1) : late i = i :=
  Equiv.swap_apply_of_ne_of_ne (by omega) (by omega)

theorem late_order : HeapOrder (fun a b => a ≤ b) late (2 ^ 30 + 2) := by
  intro p c hchild hc
  have hp : p < 2 ^ 30 - 1 := by
    unfold IsChild at hchild
    omega
  have hlt := hchild.lt
  rw [late_of_lt hp, late, Equiv.swap_apply_def]
  split_ifs <;> omega

theorem descend_succ {gt : T → T → Prop} [DecidableRel gt] (heap : ℕ → T) (m : ℤ) (p k : ℕ) :
    descend gt heap m p (k + 1) = firstChild gt heap m (descend gt heap m p k) := by
  induction k generalizing p with
  | zero => rfl
  | succ k ih => exact ih _

theorem descend_late {l : ℕ} (hl : l ≤ 29) : descend (fun a b => a > b) late (2 ^ 30) 0 l = 2 ^ l - 1 := by
  induction l with
  | zero => rfl
  | succ l ih =>
    have hpow : 2 ^ l ≤ 2 ^ 28 := Nat.pow_le_pow_right (by decide) (by omega)
    have hpos : 0 < 2 ^ l := Nat.pow_pos (by decide)
    rw [descend_succ, ih (by omega), firstChild, pick, late_of_lt (by omega), late_of_lt (by omega),
      if_neg (by omega), pow_succ]
    omega

theorem descend_late_end : descend (fun a b => a > b) late (2 ^ 30) 0 30 = 2 ^ 30 := by
  have hleft : late (2 * (2 ^ 29 - 1) + 1) = 2 ^ 30 := Equiv.swap_apply_left _ _
  have hright : late (2 * (2 ^ 29 - 1) + 1 + 1) = 2 ^ 30 - 1 := Equiv.swap_apply_right _ _
  rw [descend_succ, descend_late le_rfl, firstChild, pick, hleft, hright, if_pos (by omega)]
  rfl

/-- **The last of 2^30 + 2 elements sinks to the cell 2^30.** -/
theorem pop_overflows :
    ¬ Matched (Holds (fun a b => a ≤ b) (2 ^ 30 + 2))
      (history (QMinHeap.calls ℕ).step (new late (2 ^ 30 + 2)) (pushes late (2 ^ 30 + 2) ++ [.pop]))
      (history (inOrder (fun a b => a ≤ b) (2 ^ 30 + 2)).step [] (pushes late (2 ^ 30 + 2) ++ [.pop])) := by
  obtain ⟨as, q, xs, hs, ht, h, hlength, hheap⟩ := history_pushes late_order le_rfl
  rw [matched_append_iff hs ht]
  intro hone
  refine not_step_matched h ?_ (matched_of_history_one hone)
  unfold Shallow Sinks
  rw [h.size_eq, hlength, hheap, show 2 ^ 30 + 2 - 1 = 2 ^ 30 + 1 from rfl,
    show (((2 ^ 30 + 2 : ℕ) : ℤ) - 2) = 2 ^ 30 from rfl]
  intro hshallow
  refine hshallow rfl ⟨29, ?_, fun l hl => ?_⟩
  · rw [descend_late_end]
  · have hlast : late (2 ^ 30 + 1) = 2 ^ 30 + 1 :=
      Equiv.swap_apply_of_ne_of_ne (by omega) (by omega)
    rw [hlast]
    by_cases hend : l = 29
    · rw [hend, descend_late_end, show late (2 ^ 30) = 2 ^ 30 - 1 from Equiv.swap_apply_right _ _]
      omega
    -- on the way the elements are smaller than the last one
    · have hpow : 2 ^ (l + 1) ≤ 2 ^ 29 := Nat.pow_le_pow_right (by decide) (by omega)
      rw [descend_late (by omega), late_of_lt (by omega)]
      omega

end QHeap

end KalavaPir.Common
