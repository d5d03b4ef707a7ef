/-
  KalavaPir.Common.QPriorityQueue — the priority queue of `common/qqueue.h`.

  The array is kept in descending order: `adjust()` moves the element that was
  just stored behind the last one to its place, past all that are smaller but not
  past those it compares equal to; a pop takes `queue_[0]` and moves the others
  one cell down.  The order of the elements need not tell equal ones apart.
-/
import KalavaPir.Common.Container
import KalavaPir.Framework.ArrayPrefix
import KalavaPir.Framework.StableOrder

namespace KalavaPir.Common

open KalavaPir.Framework List Function

/-- `QPriorityQueue<T_TYPE>`, with its elements inside the array. -/
structure QPriorityQueue (T : Type) where
  queue_ : ℕ → T
  size_ : ℕ
  max_size_ : ℕ
  size_le : size_ ≤ max_size_

namespace QPriorityQueue

variable {T : Type}

/-! ## §1. The operations. -/

/-- `init(size)`: refused (−1) unless the size is positive. -/
def init (mem : ℕ → T) (n : ℤ) : Option (QPriorityQueue T) :=
  if n ≤ 0 then none else some ⟨mem, 0, n.toNat, Nat.zero_le _⟩

/-- No element waits. -/
def empty (q : QPriorityQueue T) : Bool := q.size_ == 0

/-- No place is left. -/
def full (q : QPriorityQueue T) : Bool := q.size_ == q.max_size_

/-- All elements are dropped. -/
def clear (q : QPriorityQueue T) : QPriorityQueue T :=
  { q with
    size_ := 0
    size_le := Nat.zero_le _ }

/-- `for(i=1; i<size_; ++i) queue_[i-1]=queue_[i]; size_--;` -/
def remove (q : QPriorityQueue T) : QPriorityQueue T where
  queue_ := shiftLeft q.queue_ 0 (q.size_ - 1)
  size_ := q.size_ - 1
  max_size_ := q.max_size_
  size_le := (Nat.sub_le _ _).trans q.size_le

section Operations

variable [LE T] [DecidableLE T]

/-- The loop of `adjust()` and the store behind it; the argument is `j+1`. -/
def adjustLoop (temp : T) : ℕ → (ℕ → T) → ℕ → T
  | 0, queue => update queue 0 temp
  | j + 1, queue =>
    if queue j ≥ temp then update queue (j + 1) temp
    else adjustLoop temp j (update queue (j + 1) (queue j))

/-- `adjust()` of an array with `size` elements. -/
def adjust (queue : ℕ → T) (size : ℕ) : ℕ → T :=
  adjustLoop (queue (size - 1)) (size - 1) queue

/-- `queue_[size_++]=item; adjust();` -/
def store (q : QPriorityQueue T) (item : T) (h : q.size_ < q.max_size_) : QPriorityQueue T where
  queue_ := adjust (update q.queue_ q.size_ item) (q.size_ + 1)
  size_ := q.size_ + 1
  max_size_ := q.max_size_
  size_le := h

/-- The calls of the class; a store behind the last cell is undefined. -/
def calls (T : Type) [LE T] [DecidableLE T] : Container (QPriorityQueue T) T where
  full q := some q.full
  empty := empty
  store q item := if h : q.size_ < q.max_size_ then some (q.store item h) else none
  take q := some (q.queue_ 0, q.remove)
  clear := clear

/-! ## §2. `adjust()` is a stable insertion. -/

theorem adjustLoop_of_lt (temp : T) {j i : ℕ} (hi : j < i) (queue : ℕ → T) :
    adjustLoop temp j queue i = queue i := by
  induction j generalizing queue with
  | zero =>
    have hne : i ≠ 0 := by omega
    exact update_of_ne hne temp queue
  | succ j ih =>
    unfold adjustLoop
    have hne : i ≠ j + 1 := by omega
    split_ifs
    · exact update_of_ne hne temp queue
    · rw [ih (by omega), update_of_ne hne]

/-- Where the loop puts the element: behind the last one that is not smaller. -/
theorem cells_adjustLoop (temp : T) (j : ℕ) (queue : ℕ → T) : ∃ l₁ l₂, cells queue j = l₁ ++ l₂ ∧
      cells (adjustLoop temp j queue) (j + 1) = l₁ ++ temp :: l₂ ∧
      (∀ x ∈ l₂, ¬ x ≥ temp) ∧ ∀ x ∈ l₁.getLast?, x ≥ temp := by
  induction j generalizing queue with
  | zero => exact ⟨[], [], rfl, cells_update_self queue 0 temp, by simp, by simp⟩
  | succ j ih =>
    unfold adjustLoop
    split_ifs with hstop
    -- the loop stops behind the cell `j`
    · refine ⟨cells queue (j + 1), [], (append_nil _).symm, cells_update_self queue (j + 1) temp,
        by simp, ?_⟩
      rw [cells_succ, getLast?_concat]
      intro x hx
      rw [← Option.mem_some.mp hx]
      exact hstop
    -- the element of the cell `j` is smaller, and moves up by one
    · obtain ⟨l₁, l₂, hcells, hloop, hsmall, hlast⟩ := ih (update queue (j + 1) (queue j))
      rw [cells_update_of_le queue (Nat.le_succ j)] at hcells
      refine ⟨l₁, l₂ ++ [queue j], ?_, ?_, ?_, hlast⟩
      · rw [cells_succ, hcells, append_assoc]
      · -- the element moved up last stays where it is
        rw [cells_succ, hloop, adjustLoop_of_lt temp (Nat.lt_succ_self j), update_self,
          append_assoc]
        rfl
      · intro x hx
        rcases mem_append.mp hx with hx | hx
        · exact hsmall x hx
        · rw [mem_singleton.mp hx]
          exact hstop

end Operations

/-! ## §3. The elements in the order of their pushes. -/

variable [Preorder T] [DecidableLE T]

/-- The list of the elements in the order of their pushes; a pop takes the
    earliest of the greatest. -/
def earliestMax (cap : ℕ) : Container (List T) T :=
  Container.bounded (fun item xs => xs ++ [item])
    (fun xs => (xs.find? (leads (· ≥ ·) xs)).map fun x => (x, xs.eraseP (leads (· ≥ ·) xs))) cap

/-- The queue holds the elements pushed in the order `xs`, the greatest first and
    equal ones as they came. -/
structure Holds (n : ℕ) (q : QPriorityQueue T) (xs : List T) : Prop where
  max_size : q.max_size_ = n
  elements : cells q.queue_ q.size_ = xs.insertionSort (· ≥ ·)

variable {n : ℕ} {q : QPriorityQueue T} {xs : List T}

theorem Holds.size_eq (h : Holds n q xs) : q.size_ = xs.length := by
  rw [← length_cells q.queue_ q.size_, h.elements, length_insertionSort]

/-- **`adjust()` is a stable insertion.** -/
theorem cells_adjust {queue : ℕ → T} {size : ℕ} (item : T) (hsorted : (cells queue size).Pairwise (· ≥ ·)) :
    cells (adjust (update queue size item) (size + 1)) (size + 1)
      = insertLast (· ≥ ·) item (cells queue size) := by
  unfold adjust
  rw [Nat.add_sub_cancel, update_self]
  obtain ⟨l₁, l₂, hcells, hloop, hsmall, hlast⟩ :=
    cells_adjustLoop item size (update queue size item)
  rw [cells_update_of_le queue le_rfl] at hcells
  rw [hloop, hcells, insertLast_append (· ≥ ·) ?_ hsmall]
  -- the elements in front of the last one are not smaller than it
  intro b hb
  rw [hcells] at hsorted
  have hfront : l₁.Pairwise (· ≥ ·) := (pairwise_append.mp hsorted).1
  obtain ⟨l, c, rfl⟩ : ∃ l c, l₁ = l ++ [c] :=
    ⟨_, _, (dropLast_concat_getLast (ne_nil_of_mem hb)).symm⟩
  have hc : c ≥ item := hlast c (by rw [getLast?_concat]; rfl)
  rcases mem_append.mp hb with hb | hb
  · have hbc : b ≥ c := (pairwise_append.mp hfront).2.2 b hb c (mem_singleton_self c)
    exact hc.trans hbc
  · rw [mem_singleton.mp hb]
    exact hc

variable [Std.Total (fun a b : T => a ≤ b)]

instance : Std.Total (fun a b : T => a ≥ b) := ⟨fun a b => Std.Total.total b a⟩

theorem Holds.store (h : Holds n q xs) (item : T) (hroom : q.size_ < q.max_size_) :
    Holds n (q.store item hroom) (xs ++ [item]) := by
  refine ⟨h.max_size, ?_⟩
  have hsorted : (cells q.queue_ q.size_).Pairwise (· ≥ ·) := by
    rw [h.elements]
    exact pairwise_insertionSort _ xs
  show cells (adjust (update q.queue_ q.size_ item) (q.size_ + 1)) (q.size_ + 1) = _
  rw [cells_adjust item hsorted, h.elements, insertionSort_concat]

theorem Holds.take (h : Holds n q xs) (hsome : xs ≠ []) :
    (earliestMax n).take xs = some (q.queue_ 0, xs.eraseP (leads (· ≥ ·) xs)) ∧
      Holds n q.remove (xs.eraseP (leads (· ≥ ·) xs)) := by
  have hsize := h.size_eq
  obtain ⟨rfl, -⟩ | ⟨x, hfind, hsort⟩ := insertionSort_uncons (· ≥ ·) xs
  · exact absurd rfl hsome
  -- the first cell holds the earliest maximum, the others the rest in order
  · obtain ⟨m, hm⟩ : ∃ m, q.size_ = m + 1 :=
      Nat.exists_eq_succ_of_ne_zero fun h0 => hsome (length_eq_zero_iff.mp (hsize ▸ h0))
    have hcells := h.elements
    rw [hsort, hm, cells_succ_eq_cons] at hcells
    injection hcells with hhead htail
    refine ⟨?_, h.max_size, ?_⟩
    · show (xs.find? _).map _ = _
      rw [hfind, hhead]
      rfl
    · show cells (shiftLeft q.queue_ 0 (q.size_ - 1)) (q.size_ - 1) = _
      rw [hm, Nat.add_sub_cancel, cells_shiftLeft _ (Nat.zero_le m) (by omega), cells_succ_eq_cons,
        eraseIdx_zero, tail_cons, htail]

/-- **EACH CALL TAKES THE EARLIEST MAXIMUM.** -/
theorem step_matched (h : Holds n q xs) (c : Container.Call T) :
    Matched (Holds n) ((calls T).step q c) ((earliestMax n).step xs c) := by
  have hsize := h.size_eq
  have hfull : (calls T).full q = (earliestMax n).full xs := by
    show some (q.size_ == q.max_size_) = some (xs.length == n)
    rw [hsize, h.max_size]
  have hempty : (calls T).empty q = (earliestMax n).empty xs := by
    show (q.size_ == 0) = (xs.length == 0)
    rw [hsize]
  refine Container.step_matched h hfull hempty ⟨h.max_size, rfl⟩ ?_ c ?_
  · intro item hroom
    have hne : xs.length ≠ n := Container.bounded_room hroom
    have hlt : q.size_ < q.max_size_ := by
      have hle := q.size_le
      rw [h.max_size] at hle ⊢
      omega
    exact ⟨_, _, dif_pos hlt, rfl, h.store item hlt⟩
  · intro _ hsome
    obtain ⟨htake, hrest⟩ := h.take (Container.bounded_some hsome)
    exact ⟨_, _, _, rfl, htake, hrest⟩

/-- **EVERY HISTORY TAKES THE EARLIEST MAXIMA.** -/
theorem history_earliestMax (mem : ℕ → T) (n : ℕ) (hn : 0 < n) (cs : List (Container.Call T)) :
    ∃ q, init mem n = some q ∧
      Matched (Holds n) (history (calls T).step q cs) (history (earliestMax n).step [] cs) := by
  have hpos : ¬ (n : ℤ) ≤ 0 := by omega
  refine ⟨_, if_neg hpos, Matched.history (fun s t l h => step_matched h l) ?_ cs⟩
  exact ⟨rfl, rfl⟩

/-- Two cells: a push too many, a pop too many. -/
theorem history_earliestMax_two :
    ∃ q, init (fun _ => 0) (2 : ℕ) = some q ∧
      Matched (Holds 2)
        (history (calls ℕ).step q [.push 1, .push 3, .push_non_blocking 2, .pop, .pop_non_blocking,
          .pop_non_blocking])
        (history (earliestMax 2).step [] [.push 1, .push 3, .push_non_blocking 2, .pop,
          .pop_non_blocking, .pop_non_blocking]) :=
  history_earliestMax _ 2 (by decide) _

end QPriorityQueue

end KalavaPir.Common
