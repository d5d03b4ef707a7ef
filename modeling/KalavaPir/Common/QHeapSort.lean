/-
  KalavaPir.Common.QHeapSort — `heapAdjust` and `Q_Heap_Sort`, `common/qalgorithm.h`.

  `heapAdjust` computes the positions `2*i+1` and `2*i+2` of both children of a cell
  before it looks whether they are in use: at the cell 2³⁰ − 1 the second of them
  is no `int32_t`, and the result is undefined (`none`).

  The calls that `Q_Heap_Sort` makes are the same for all arrays of a size; how far
  down an element gets depends on the array.
-/
import KalavaPir.Framework.HeapOrder
import KalavaPir.Framework.Loop
import KalavaPir.Framework.StableRange
import KalavaPir.Common.Int32

namespace KalavaPir.Common

open KalavaPir.Framework

variable {A K : Type} [LinearOrder K]

/-! ## §1. `heapAdjust` and `Q_Heap_Sort` (qalgorithm.h:419). -/

section Source

variable (key : A → K)

/-- The index `largest` of `heapAdjust`. -/
def largestOf (v : ℤ → A) (size i : ℤ) : ℤ :=
  let l := 2 * i + 1
  let r := 2 * i + 2
  let largest := if l < size ∧ key (v l) > key (v i) then l else i
  if r < size ∧ key (v r) > key (v largest) then r else largest

/-- `heapAdjust(v, size, i)`, with fuel for its recursion. -/
def heapAdjust (size : ℤ) : ℕ → (ℤ → A) → ℤ → Option (ℤ → A)
  | 0, _, _ => none
  | fuel + 1, v, i =>
    (int32 (2 * i + 1)).bind fun _ =>
      (int32 (2 * i + 2)).bind fun _ =>
        let largest := largestOf key v size i
        if largest ≠ i then heapAdjust size fuel (swapAt v i largest) largest else some v

/-- The first loop of `Q_Heap_Sort`: `for(i=size/2-1; i>=0; i--)`. -/
def heapBuild (v : ℤ → A) (size : ℤ) : Option (ℤ → A) :=
  countdown (fun i v => heapAdjust key size (size.toNat + 1) v i) (size.tdiv 2).toNat v

/-- The second one: `for(i=size-1; i>0; i--)`.  In the round with `i+1`, `size` is
    `i+1` after `size--`. -/
def heapTake (v : ℤ → A) (size : ℤ) : Option (ℤ → A) :=
  countdown (fun i v => heapAdjust key (i + 1) (i + 2) (swapAt v 0 (i + 1)) 0) (size - 1).toNat v

/-- A heap is built, and its root goes to the end again and again. -/
def Q_Heap_Sort (v : ℤ → A) (size : ℤ) : Option (ℤ → A) :=
  (heapBuild key v size).bind fun v => heapTake key v size

end Source

/-! ## §2. The same on unbounded integers. -/

section Fits

variable (key : A → K)

/-- Where `temp` comes to rest in the place of `v[i]`: it goes down to the greater
    child while that one is greater. -/
def restOf (v : ℤ → A) (size : ℤ) (temp : A) : ℕ → ℤ → ℤ
  | 0, i => i
  | n + 1, i =>
    let largest := largestOf key (Function.update v i temp) size i
    if largest ≠ i then restOf v size temp n largest else i

/-- The call `heapAdjust(v, size, i)` leaves `v[i]` above the cell 2³⁰ − 1. -/
def SinkFits (v : ℤ → A) (size i : ℤ) : Prop :=
  restOf key v size (v i) size.toNat i < 2 ^ 30 - 1

/-- The array after `heapAdjust(v, size, i)`. -/
def sink (size : ℤ) : ℕ → (ℤ → A) → ℤ → ℤ → A
  | 0, v, _ => v
  | n + 1, v, i =>
    let largest := largestOf key v size i
    if largest ≠ i then sink size n (swapAt v i largest) largest else v

/-- The array after the first loop. -/
def built (v : ℤ → A) (size : ℤ) : ℤ → A :=
  lastState (fun i v => sink key size size.toNat v i) (size.tdiv 2).toNat v

/-- The array after the second one. -/
def taken (v : ℤ → A) (size : ℤ) : ℤ → A :=
  lastState (fun i v => sink key (i + 1) (i + 1) (swapAt v 0 (i + 1)) 0) (size - 1).toNat
    (built key v size)

/-- **All calls fit**: whatever `heapAdjust` is called for comes to rest above the
    cell 2³⁰ − 1. -/
def HeapFits (v : ℤ → A) (size : ℤ) : Prop :=
  AllRounds (fun i v => SinkFits key v size i) (fun i v => sink key size size.toNat v i)
      (size.tdiv 2).toNat v ∧
    AllRounds (fun i v => SinkFits key (swapAt v 0 (i + 1)) (i + 1) 0)
      (fun i v => sink key (i + 1) (i + 1) (swapAt v 0 (i + 1)) 0) (size - 1).toNat (built key v size)

end Fits

/-! ## §3. A call of `heapAdjust`. -/

section Largest

variable {key : A → K} {v w : ℤ → A} {size i : ℤ}

/-- It is the position itself, or that of a child in use with a greater element. -/
theorem largestOf_cases (key : A → K) (v : ℤ → A) (size i : ℤ) : (largestOf key v size i = i ∧
      ∀ d, d = 2 * i + 1 ∨ d = 2 * i + 2 → d < size → key (v d) ≤ key (v i)) ∨
    ((largestOf key v size i = 2 * i + 1 ∨ largestOf key v size i = 2 * i + 2) ∧
      largestOf key v size i < size ∧ key (v i) < key (v (largestOf key v size i)) ∧
      ∀ d, d = 2 * i + 1 ∨ d = 2 * i + 2 → d < size → key (v d) ≤ key (v (largestOf key v size i))) := by
  unfold largestOf
  dsimp only
  by_cases hl : 2 * i + 1 < size ∧ key (v (2 * i + 1)) > key (v i)
  · rw [if_pos hl]
    by_cases hr : 2 * i + 2 < size ∧ key (v (2 * i + 2)) > key (v (2 * i + 1))
    · -- the second child is greater than the first one
      rw [if_pos hr]
      refine Or.inr ⟨Or.inr rfl, hr.1, hl.2.trans hr.2, fun d hd hlt => ?_⟩
      obtain rfl | rfl := hd
      · exact hr.2.le
      · exact le_rfl
    · rw [if_neg hr]
      refine Or.inr ⟨Or.inl rfl, hl.1, hl.2, fun d hd hlt => ?_⟩
      obtain rfl | rfl := hd
      · exact le_rfl
      · exact not_lt.mp fun hbad => hr ⟨hlt, hbad⟩
  · rw [if_neg hl]
    by_cases hr : 2 * i + 2 < size ∧ key (v (2 * i + 2)) > key (v i)
    · rw [if_pos hr]
      refine Or.inr ⟨Or.inr rfl, hr.1, hr.2, fun d hd hlt => ?_⟩
      obtain rfl | rfl := hd
      · exact (not_lt.mp fun hbad => hl ⟨hlt, hbad⟩).trans hr.2.le
      · exact le_rfl
    rw [if_neg hr]
    refine Or.inl ⟨rfl, fun d hd hlt => ?_⟩
    obtain rfl | rfl := hd
    · exact not_lt.mp fun hbad => hl ⟨hlt, hbad⟩
    · exact not_lt.mp fun hbad => hr ⟨hlt, hbad⟩

theorem largestOf_congr (hi : v i = w i) (hl : v (2 * i + 1) = w (2 * i + 1))
    (hr : v (2 * i + 2) = w (2 * i + 2)) : largestOf key v size i = largestOf key w size i := by
  unfold largestOf
  dsimp only
  rw [hi, hl, hr]
  by_cases hlt : 2 * i + 1 < size ∧ key (w (2 * i + 1)) > key (w i)
  · rw [if_pos hlt, hl]
  · rw [if_neg hlt, hi]

theorem largestOf_bounds (hi : 0 ≤ i) (hne : largestOf key v size i ≠ i) :
    i < largestOf key v size i ∧ largestOf key v size i < size ∧ 2 * i + 1 < size := by
  obtain ⟨heq, -⟩ | ⟨hchild, hlt, -⟩ := largestOf_cases key v size i
  · exact absurd heq hne
  · omega

/-- The positions of both children are `int32_t`s. -/
theorem heapAdjust_children (hi : 0 ≤ i) (fuel : ℕ) (v : ℤ → A) : heapAdjust key size (fuel + 1) v i =
      if i < 2 ^ 30 - 1 then
        (if largestOf key v size i ≠ i then
          heapAdjust key size fuel (swapAt v i (largestOf key v size i)) (largestOf key v size i)
        else some v)
      else none := by
  rw [heapAdjust]
  by_cases hfits : i < 2 ^ 30 - 1
  · rw [if_pos hfits, int32_of_range (by omega) (by omega), int32_of_range (by omega) (by omega)]
    rfl
  · have hr : int32 (2 * i + 2) = none := int32_of_gt (by unfold INT32_MAX; omega)
    rw [if_neg hfits, hr]
    cases int32 (2 * i + 1) <;> rfl

/-- **A CALL** returns if its element comes to rest above the cell 2³⁰ − 1.  The
    element is `temp`, and the cells behind it are those of `v`. -/
theorem heapAdjust_eq {temp : A} (hsize : size ≤ INT32_MAX) (n : ℕ) : ∀ {w : ℤ → A} {i : ℤ}, 0 ≤ i →
    size - i ≤ n → w i = temp → (∀ k, i < k → w k = v k) → heapAdjust key size (n + 1) w i =
      if restOf key v size temp n i < 2 ^ 30 - 1 then some (sink key size n w i) else none := by
  unfold INT32_MAX at hsize
  induction n with
  | zero =>
    intro w i hi hn _ _
    -- `i` is the end of the heap: there is no child
    have hrest : largestOf key w size i = i := by
      by_contra hne
      have hb := largestOf_bounds hi hne
      omega
    rw [heapAdjust_children hi, if_neg (not_not.mpr hrest)]
    rfl
  | succ n ih =>
    intro w i hi hn htemp hsame
    -- what is behind `i` has not been touched yet
    have hlargest : largestOf key (Function.update v i temp) size i = largestOf key w size i := by
      refine largestOf_congr ?_ ?_ ?_
      · rw [Function.update_self, htemp]
      · rw [Function.update_of_ne (by omega), hsame _ (by omega)]
      · rw [Function.update_of_ne (by omega), hsame _ (by omega)]
    rw [heapAdjust_children hi, restOf, sink, hlargest]
    by_cases hne : largestOf key w size i = i
    · rw [if_neg (not_not.mpr hne), if_neg (not_not.mpr hne), if_neg (not_not.mpr hne)]
    -- there is a child, and the positions of all children of `i` are in range
    obtain ⟨hdown, hlt, hchild⟩ := largestOf_bounds hi hne
    rw [if_pos hne, if_pos hne, if_pos hne, if_pos (by omega)]
    refine ih (by omega) (by omega) ?_ fun k hk => ?_
    · rw [swapAt_right, htemp]
    · rw [swapAt_other w (by omega) (by omega), hsame k (by omega)]

theorem heapAdjust_fits (hsize : size ≤ INT32_MAX) (hi : 0 ≤ i) (h : SinkFits key v size i) :
    heapAdjust key size (size.toNat + 1) v i = some (sink key size size.toNat v i) := by
  rw [heapAdjust_eq hsize size.toNat hi (by omega) rfl fun _ _ => rfl]
  exact if_pos h

theorem heapAdjust_overflows (hsize : size ≤ INT32_MAX) (hi : 0 ≤ i) (h : ¬ SinkFits key v size i) :
    heapAdjust key size (size.toNat + 1) v i = none := by
  rw [heapAdjust_eq hsize size.toNat hi (by omega) rfl fun _ _ => rfl]
  exact if_neg h

end Largest

/-! ## §4. What a call does. -/

/-- The cells of the heap, as they are numbered. -/
def heapCells (v : ℤ → A) : ℕ → A := fun n => v n

/-- No child is greater than its parent. -/
def NotBelow (key : A → K) (a b : A) : Prop := key b ≤ key a

section Sink

variable {key : A → K} {v : ℤ → A} {n : ℕ}

instance (key : A → K) : Std.Total (NotBelow key) := ⟨fun a b => le_total (key b) (key a)⟩

instance (key : A → K) : IsTrans A (NotBelow key) := ⟨fun _ _ _ hab hbc => le_trans hbc hab⟩

theorem heapCells_swapAt (v : ℤ → A) (i j : ℕ) : heapCells (swapAt v i j) = heapCells v ∘ Equiv.swap i j := by
  funext k
  show swapAt v i j k = heapCells v (Equiv.swap i j k)
  by_cases hi : k = i
  · rw [hi, swapAt_left, Equiv.swap_apply_left]
    rfl
  by_cases hj : k = j
  · rw [hj, swapAt_right, Equiv.swap_apply_right]
    rfl
  · rw [swapAt_other v (by omega) (by omega), Equiv.swap_apply_of_ne_of_ne hi hj]
    rfl

/-- **An element sinks** into a heap, which only permutes the cells from its own on. -/
theorem sink_spec {lo : ℕ} (m : ℕ) : ∀ (v : ℤ → A) (hole : ℕ), n ≤ m + hole → lo ≤ hole →
    hole ≤ n → DownFrom (NotBelow key) (heapCells v) n lo hole →
    HeapFrom (NotBelow key) (heapCells (sink key n m v hole)) n lo ∧
      Permuted v (sink key n m v hole) hole (n - 1) := by
  induction m with
  | zero =>
    intro v hole hm _ hn h
    refine ⟨h.settle fun c hc hcn => ?_, Permuted.refl v _ _⟩
    have := hc.lt
    omega
  | succ m ih =>
    intro v hole hm hlo hn h
    rw [sink]
    obtain ⟨heq, hstop⟩ | ⟨hchild, hlt, hless, hgreatest⟩ := largestOf_cases key v n hole
    · rw [if_neg (not_not.mpr heq)]
      refine ⟨h.settle fun c hc hcn => ?_, Permuted.refl v _ _⟩
      unfold IsChild at hc
      exact hstop c (by omega) (by omega)
    -- the greater child goes up
    rw [if_pos (by omega)]
    obtain ⟨c, hcast⟩ : ∃ c : ℕ, largestOf key v n hole = c :=
      ⟨(largestOf key v n hole).toNat, by omega⟩
    rw [hcast] at hchild hlt hless hgreatest ⊢
    have hc : IsChild c hole := by
      unfold IsChild
      omega
    have hround := h.swap hlo hc (by omega)
      (fun d hd hdn => by
        unfold IsChild at hd
        exact hgreatest d (by omega) (by omega))
      (not_le.mpr hless)
    rw [← heapCells_swapAt] at hround
    obtain ⟨hheap, hperm⟩ := ih (swapAt v hole c) c (by omega) (by omega) (by omega) hround
    refine ⟨hheap, ?_⟩
    have hswap : Permuted v (swapAt v hole c) hole (n - 1) :=
      Permuted.swapAt v (by omega) (by omega)
    exact hswap.trans (hperm.mono (by omega) le_rfl)

end Sink

/-! ## §5. The sort. -/

section Sorting

variable {key : A → K} {v v' : ℤ → A} {size : ℤ}

theorem heapBuild_eq_some (hsize : size ≤ INT32_MAX) : heapBuild key v size = some v' ↔
      AllRounds (fun i v => SinkFits key v size i) (fun i v => sink key size size.toNat v i)
        (size.tdiv 2).toNat v ∧ v' = built key v size :=
  countdown_eq_some (fun i _ _ => heapAdjust_fits hsize (Int.natCast_nonneg i))
    (fun i _ _ => heapAdjust_overflows hsize (Int.natCast_nonneg i))

variable {w : ℤ → A}

theorem heapTake_eq_some (hsize : size ≤ INT32_MAX) : heapTake key w size = some v' ↔
      AllRounds (fun i v => SinkFits key (swapAt v 0 (i + 1)) (i + 1) 0)
          (fun i v => sink key (i + 1) (i + 1) (swapAt v 0 (i + 1)) 0) (size - 1).toNat w ∧
        v' = lastState (fun i v => sink key (i + 1) (i + 1) (swapAt v 0 (i + 1)) 0) (size - 1).toNat w := by
  have hfuel : ∀ i : ℕ, ((i : ℤ) + 1).toNat = i + 1 := fun i => by omega
  refine countdown_eq_some (fun i w hi hfits => ?_) (fun i w hi hbad => ?_)
  · have hrun := heapAdjust_fits (by omega) le_rfl hfits
    rwa [hfuel] at hrun
  · have hrun := heapAdjust_overflows (by omega) le_rfl hbad
    rwa [hfuel] at hrun

/-- **THE HEAP SORT RETURNS** if and only if all calls fit. -/
theorem Q_Heap_Sort_eq_some (hsize : size ≤ INT32_MAX) :
    Q_Heap_Sort key v size = some v' ↔ HeapFits key v size ∧ v' = taken key v size := by
  unfold Q_Heap_Sort HeapFits
  rw [Option.bind_eq_some_iff]
  constructor
  · intro h
    obtain ⟨w, hw, hrun⟩ := h
    obtain ⟨hbuild, rfl⟩ := (heapBuild_eq_some hsize).mp hw
    obtain ⟨htake, heq⟩ := (heapTake_eq_some hsize).mp hrun
    exact ⟨⟨hbuild, htake⟩, heq⟩
  · intro h
    obtain ⟨⟨hbuild, htake⟩, heq⟩ := h
    exact ⟨_, (heapBuild_eq_some hsize).mpr ⟨hbuild, rfl⟩, (heapTake_eq_some hsize).mpr ⟨htake, heq⟩⟩

/-- The first loop makes a heap. -/
theorem built_spec (key : A → K) (v : ℤ → A) (n : ℕ) :
    HeapOrder (NotBelow key) (heapCells (built key v n)) n ∧ Permuted v (built key v n) 0 (n - 1) := by
  have hend := lastState_holds
    (I := fun lo w => HeapFrom (NotBelow key) (heapCells w) n lo ∧ Permuted v w 0 (n - 1)) (n / 2)
    (fun lo w hlo h => by
      obtain ⟨hheap, hperm⟩ := sink_spec n w lo (by omega) le_rfl (by omega) h.1.down
      exact ⟨hheap, h.2.trans (hperm.mono (by omega) le_rfl)⟩)
    ⟨heapFrom_half _ (heapCells v) n, Permuted.refl v _ _⟩
  exact ⟨hend.1.order, hend.2⟩

/-- In the rounds of the second loop the heap has `k+1` cells, and the elements
    behind it are in their places. -/
structure Taking (key : A → K) (v : ℤ → A) (n k : ℕ) (w : ℤ → A) : Prop where
  heap : HeapOrder (NotBelow key) (heapCells w) (k + 1)
  placed : PlacedOutside (key ∘ w) 0 (n - 1) 0 k
  perm : Permuted v w 0 (n - 1)

/-- **A round** takes the root. -/
theorem Taking.step {n k : ℕ} (h : Taking key v n (k + 1) w) (hk : k + 1 < n) :
    Taking key v n k (sink key (k + 1) (k + 1) (swapAt w 0 (k + 1)) 0) := by
  have hroot : ∀ j : ℤ, 0 ≤ j → j ≤ k + 1 → key (w j) ≤ key (w 0) := by
    intro j hj hj'
    have hle : NotBelow key (heapCells w 0) (heapCells w j.toNat) := h.heap.root_le (by omega)
    unfold NotBelow heapCells at hle
    rwa [Int.toNat_of_nonneg hj] at hle
  have hswap : Permuted w (swapAt w 0 (k + 1)) 0 (k + 1) := Permuted.swapAt w (by omega) (by omega)
  -- the root is the greatest element of the heap, and goes behind it
  have hplaced : PlacedOutside (key ∘ swapAt w 0 (k + 1)) 0 (n - 1) 0 k := by
    have hmoved : PlacedOutside (key ∘ swapAt w 0 (k + 1)) 0 (n - 1) 0 (k + 1) := by
      rw [swapAt_eq]
      exact h.placed.moved (Moves.swap (by omega) (by omega)) le_rfl (by omega)
    have hlast := hmoved.last fun j hj hj' => by
      show key (swapAt w 0 (k + 1) j) ≤ key (swapAt w 0 (k + 1) (k + 1))
      rw [swapAt_right]
      exact hswap.forall_inside (p := fun a => key a ≤ key (w 0)) hroot j hj hj'
    rwa [show (k : ℤ) + 1 - 1 = k by omega] at hlast
  -- only the new root may be out of order
  have hdown : DownFrom (NotBelow key) (heapCells (swapAt w 0 (k + 1))) (k + 1) 0 0 := by
    have hcell : ∀ c : ℕ, c ≠ 0 → c < k + 1 → heapCells (swapAt w 0 (k + 1)) c = heapCells w c :=
      fun c hc hck => swapAt_other w (by omega) (by omega)
    refine ⟨fun p c _ hchild hc hne => ?_, fun p c _ hchild => ?_⟩
    · have hlt := hchild.lt
      rw [hcell p hne (by omega), hcell c (by omega) hc]
      exact h.heap p c hchild (by omega)
    · have hlt := hchild.lt
      omega
  obtain ⟨hheap, hperm⟩ := sink_spec (k + 1) (swapAt w 0 (k + 1)) 0 (by omega) le_rfl (by omega) hdown
  push_cast at hheap hperm
  rw [show (k : ℤ) + 1 - 1 = k by omega] at hperm
  have hround := hswap.trans (hperm.mono le_rfl (by omega))
  obtain ⟨π, hπ, heq⟩ := hperm
  refine ⟨hheap.order, ?_, h.perm.trans (hround.mono le_rfl (by omega))⟩
  rw [heq]
  exact hplaced.moved hπ le_rfl (by omega)

/-- **The range has been sorted** in the end. -/
theorem taken_spec (key : A → K) (v : ℤ → A) (n : ℕ) :
    Permuted v (taken key v n) 0 (n - 1) ∧ SortedOn (key ∘ taken key v n) 0 (n - 1) := by
  obtain ⟨hheap, hperm⟩ := built_spec key v n
  unfold taken
  cases n with
  | zero => exact ⟨hperm, SortedOn.of_le (by omega)⟩
  | succ m =>
    have hend := lastState_holds (I := Taking key v (m + 1)) m
      (fun k w hk h => h.step (by omega))
      ⟨hheap, by push_cast; rw [show (m : ℤ) + 1 - 1 = m by omega]; exact PlacedOutside.start _ _ _, hperm⟩
    have hrounds : (((m + 1 : ℕ) : ℤ) - 1).toNat = m := by omega
    rw [hrounds]
    exact ⟨hend.perm, hend.placed.sorted (SortedOn.of_le le_rfl)⟩

/-! ## §6. Sizes below 2³⁰. -/

theorem le_restOf (key : A → K) (v : ℤ → A) (size : ℤ) (temp : A) (n : ℕ) : ∀ {i : ℤ}, 0 ≤ i →
    i ≤ restOf key v size temp n i := by
  induction n with
  | zero => exact fun _ => le_rfl
  | succ n ih =>
    intro i hi
    rw [restOf]
    by_cases hne : largestOf key (Function.update v i temp) size i = i
    · rw [if_neg (not_not.mpr hne)]
    · obtain ⟨hdown, -, -⟩ := largestOf_bounds hi hne
      rw [if_pos hne]
      exact hdown.le.trans (ih (by omega))

/-- Nothing comes to rest behind the heap. -/
theorem restOf_lt (key : A → K) (v : ℤ → A) (temp : A) (n : ℕ) : ∀ {i : ℤ}, 0 ≤ i → i < size →
    restOf key v size temp n i < size := by
  induction n with
  | zero => exact fun _ h => h
  | succ n ih =>
    intro i hi hlt
    rw [restOf]
    by_cases hne : largestOf key (Function.update v i temp) size i = i
    · rw [if_neg (not_not.mpr hne)]
      exact hlt
    · obtain ⟨hdown, hin, -⟩ := largestOf_bounds hi hne
      rw [if_pos hne]
      exact ih (by omega) hin

theorem heapFits_of_lt (key : A → K) (v : ℤ → A) (hpos : 0 ≤ size) (hsize : size < 2 ^ 30) :
    HeapFits key v size := by
  have hfits : ∀ (w : ℤ → A) {m i : ℤ}, m ≤ size → 0 ≤ i → i < m → SinkFits key w m i := by
    intro w m i hm hi hlt
    have hrest := restOf_lt key w (w i) m.toNat hi hlt
    unfold SinkFits
    omega
  refine ⟨AllRounds.of_forall _ fun k w hk => ?_, AllRounds.of_forall _ fun k w hk => ?_⟩
  · rw [Int.tdiv_eq_ediv_of_nonneg hpos] at hk
    exact hfits w le_rfl (Int.natCast_nonneg k) (by omega)
  · exact hfits _ (by omega) le_rfl (by omega)

end Sorting

end KalavaPir.Common
