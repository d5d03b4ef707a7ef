/-
  KalavaPir.Common.QQueue — the circular queue of `common/qqueue.h`.

  `front_` and `rear_` are cursors into `max_size_` cells; the queue is empty when
  they coincide and full when one more push would make them coincide.  Every
  operation holds `mutex_` from its test to its last assignment, hence each is ONE
  atomic step here; `push` and `pop` spin until their test succeeds (`none`).

  The cells are modelled as a function of the index: `new T_TYPE[size]` leaves
  them with whatever was in memory, which is the argument `mem` of `init`.
-/
import Mathlib.Data.List.Basic
import Mathlib.Data.Int.Init

namespace KalavaPir.Common

open List

/-- `QQueue<T_TYPE>`, with its cursors inside the array. -/
structure QQueue (T : Type) where
  queue_ : ℕ → T
  max_size_ : ℕ
  front_ : ℕ
  rear_ : ℕ
  front_lt : front_ < max_size_
  rear_lt : rear_ < max_size_

namespace QQueue

variable {T : Type}

/-! ## §1. The operations. -/

/-- `init(size)`: refused (−1) unless the size is positive. -/
def init (mem : ℕ → T) (n : ℤ) : Option (QQueue T) :=
  if h : n ≤ 0 then none
  else some ⟨mem, n.toNat, 0, 0, by omega, by omega⟩

/-- `size()`. -/
def size (q : QQueue T) : ℕ := (q.rear_ + q.max_size_ - q.front_) % q.max_size_

/-- `full()`. -/
def full (q : QQueue T) : Bool := (q.rear_ + 1) % q.max_size_ == q.front_

/-- `empty()`. -/
def empty (q : QQueue T) : Bool := q.front_ == q.rear_

/-- `queue_[rear_]=item; rear_=(rear_+1)%max_size_;` -/
def store (q : QQueue T) (item : T) : QQueue T :=
  { q with
    queue_ := Function.update q.queue_ q.rear_ item
    rear_ := (q.rear_ + 1) % q.max_size_
    rear_lt := Nat.mod_lt _ (Nat.zero_lt_of_lt q.rear_lt) }

/-- `front_=(front_+1)%max_size_;` -/
def advance (q : QQueue T) : QQueue T :=
  { q with
    front_ := (q.front_ + 1) % q.max_size_
    front_lt := Nat.mod_lt _ (Nat.zero_lt_of_lt q.front_lt) }

/-- `push(item)` once its test finds room; `none` while the queue is full. -/
def push (q : QQueue T) (item : T) : Option (QQueue T) :=
  if q.full then none else some (q.store item)

/-- `pop()` once its test finds an element; `none` while the queue is empty. -/
def pop (q : QQueue T) : Option (T × QQueue T) :=
  if q.empty then none else some (q.queue_ q.front_, q.advance)

/-- `pop_non_blocking(item)`: the same critical section, with −1 (`none`)
    instead of another round of the loop. -/
def pop_non_blocking (q : QQueue T) : Option (T × QQueue T) := q.pop

/-- A queue of two cells with one element in it. -/
def single (item : T) : QQueue T := ⟨fun _ => item, 2, 0, 1, by decide, by decide⟩

/-! ## §2. The abstract queue: the elements from `front_` to `rear_`. -/

/-- The stored elements, oldest first. -/
def toList (q : QQueue T) : List T :=
  (List.range q.size).map (fun k => q.queue_ ((q.front_ + k) % q.max_size_))

theorem length_toList (q : QQueue T) : q.toList.length = q.size := by
  simp [toList]

theorem size_lt (q : QQueue T) : q.size < q.max_size_ :=
  Nat.mod_lt _ (Nat.zero_lt_of_lt q.rear_lt)

theorem rear_eq (q : QQueue T) : q.rear_ = (q.front_ + q.size) % q.max_size_ := by
  have hf := q.front_lt
  have hr := q.rear_lt
  unfold size
  rw [Nat.add_mod_mod, show q.front_ + (q.rear_ + q.max_size_ - q.front_)
        = q.rear_ + q.max_size_ by omega, Nat.add_mod_right, Nat.mod_eq_of_lt hr]

variable {q q' : QQueue T} {x : T}

theorem size_eq_of_rear {n : ℕ} (hn : n < q.max_size_) (h : q.rear_ = (q.front_ + n) % q.max_size_) :
    q.size = n := by
  have hf := q.front_lt
  unfold size
  rw [h]
  by_cases hw : q.front_ + n < q.max_size_
  · rw [Nat.mod_eq_of_lt hw, show q.front_ + n + q.max_size_ - q.front_ = n + q.max_size_ by omega,
        Nat.add_mod_right, Nat.mod_eq_of_lt hn]
  have hwrap : (q.front_ + n) % q.max_size_ = q.front_ + n - q.max_size_ := by
    rw [Nat.mod_eq_sub_mod (Nat.le_of_not_lt hw), Nat.mod_eq_of_lt (by omega)]
  rw [hwrap, show q.front_ + n - q.max_size_ + q.max_size_ - q.front_ = n by omega,
      Nat.mod_eq_of_lt hn]

theorem empty_iff (q : QQueue T) : q.empty = true ↔ q.size = 0 := by
  unfold empty
  rw [beq_iff_eq]
  constructor
  · intro h
    exact size_eq_of_rear (Nat.zero_lt_of_lt q.rear_lt)
      (by rw [Nat.add_zero, Nat.mod_eq_of_lt q.front_lt, h])
  · intro h
    have hr := q.rear_eq
    rw [h, Nat.add_zero, Nat.mod_eq_of_lt q.front_lt] at hr
    exact hr.symm

theorem full_iff (q : QQueue T) : q.full = true ↔ q.size + 1 = q.max_size_ := by
  have hs := q.size_lt
  have hf := q.front_lt
  unfold full
  rw [beq_iff_eq, q.rear_eq, Nat.mod_add_mod]
  constructor
  · intro h
    by_contra hne
    -- one more cell would not come back to `front_`
    by_cases hw : q.front_ + q.size + 1 < q.max_size_
    · rw [Nat.mod_eq_of_lt hw] at h
      omega
    · rw [Nat.mod_eq_sub_mod (Nat.le_of_not_lt hw), Nat.mod_eq_of_lt (by omega)] at h
      omega
  · intro h
    rw [show q.front_ + q.size + 1 = q.front_ + q.max_size_ by omega, Nat.add_mod_right,
        Nat.mod_eq_of_lt hf]

/-! ## §3. Refinement of the bounded FIFO. -/

theorem init_toList {mem : ℕ → T} {n : ℤ} (h : init mem n = some q) :
    q.toList = [] ∧ (q.max_size_ : ℤ) = n := by
  unfold init at h
  split at h
  · exact absurd h (by simp)
  next hpos =>
    injection h with h
    subst h
    refine ⟨?_, by simp; omega⟩
    rw [← length_eq_zero_iff, length_toList]
    exact size_eq_of_rear (by simp; omega) (by simp)

theorem push_max_size (h : q.push x = some q') : q'.max_size_ = q.max_size_ := by
  unfold push at h
  split at h
  · exact absurd h (by simp)
  · injection h with h
    subst h
    rfl

/-- A push that gets through appends. -/
theorem push_toList (h : q.push x = some q') : q'.toList = q.toList ++ [x] := by
  unfold push at h
  split at h
  · exact absurd h (by simp)
  next hfull =>
    injection h with h
    subst h
    have hs := q.size_lt
    have hroom : q.size + 1 < q.max_size_ := by
      have : ¬ q.size + 1 = q.max_size_ := fun he => hfull ((full_iff q).mpr he)
      omega
    have hsize : (q.store x).size = q.size + 1 := by
      refine size_eq_of_rear (q := q.store x) hroom ?_
      show (q.rear_ + 1) % q.max_size_ = (q.front_ + (q.size + 1)) % q.max_size_
      rw [q.rear_eq, Nat.mod_add_mod, Nat.add_assoc]
    unfold toList
    rw [hsize, range_succ, map_append]
    congr 1
    · -- the old cells are not the one just written
      apply map_congr_left
      intro k hk
      rw [mem_range] at hk
      show Function.update q.queue_ q.rear_ x ((q.front_ + k) % q.max_size_) = _
      refine Function.update_of_ne ?_ x q.queue_
      intro heq
      rw [q.rear_eq] at heq
      have hk' : q.size = k := by
        refine size_eq_of_rear (by omega) ?_
        rw [q.rear_eq, heq]
      omega
    · simp only [map_cons, map_nil, List.cons.injEq, and_true]
      show Function.update q.queue_ q.rear_ x ((q.front_ + q.size) % q.max_size_) = x
      rw [← q.rear_eq]
      exact Function.update_self q.rear_ x q.queue_

/-- Append, refused at `max_size_ − 1`. -/
theorem push_eq_none_iff (q : QQueue T) (x : T) : q.push x = none ↔ q.toList.length + 1 = q.max_size_ := by
  rw [length_toList, ← full_iff]
  unfold push
  split <;> simp_all

theorem pop_max_size (h : q.pop = some (x, q')) : q'.max_size_ = q.max_size_ := by
  unfold pop at h
  split at h
  · exact absurd h (by simp)
  injection h with h
  injection h with _ h
  subst h
  rfl

/-- A pop that gets through takes the oldest element. -/
theorem pop_toList (h : q.pop = some (x, q')) : q.toList = x :: q'.toList := by
  unfold pop at h
  split at h
  · exact absurd h (by simp)
  next hempty =>
    injection h with h
    injection h with hx hq
    subst hq
    have hpos : q.size ≠ 0 := fun he => hempty ((empty_iff q).mpr he)
    obtain ⟨n, hn⟩ := Nat.exists_eq_succ_of_ne_zero hpos
    have hs := q.size_lt
    have hsize : q.advance.size = n := by
      refine size_eq_of_rear (q := q.advance) (by show n < q.max_size_; omega) ?_
      show q.rear_ = ((q.front_ + 1) % q.max_size_ + n) % q.max_size_
      rw [Nat.mod_add_mod, show q.front_ + 1 + n = q.front_ + q.size by omega]
      exact q.rear_eq
    unfold toList
    rw [hsize, hn, range_succ_eq_map, map_cons, map_map]
    congr 1
    · rw [Nat.add_zero, Nat.mod_eq_of_lt q.front_lt, hx]
    · apply map_congr_left
      intro k _
      show q.queue_ ((q.front_ + (k + 1)) % q.max_size_)
          = q.queue_ (((q.front_ + 1) % q.max_size_ + k) % q.max_size_)
      rw [Nat.mod_add_mod, show q.front_ + 1 + k = q.front_ + (k + 1) by omega]

/-- Take the head, refused on empty. -/
theorem pop_eq_none_iff (q : QQueue T) : q.pop = none ↔ q.toList = [] := by
  rw [← length_eq_zero_iff, length_toList, ← empty_iff]
  unfold pop
  split <;> simp_all

end QQueue

end KalavaPir.Common
