/-
  KalavaPir.Common.QQueueHistory — every history of calls on a `QQueue`.

  `size()`, `full()` and the cursors are written here as the source computes
  them, in `int32_t` arithmetic; a call that overflows is undefined.
-/
import KalavaPir.Common.QQueue
import KalavaPir.Common.Container

namespace KalavaPir.Common.QQueue

open KalavaPir.Framework Option

variable {T : Type}

/-! ## §1. The calls, in 32-bit arithmetic. -/

/-- `(rear_-front_+max_size_)%max_size_` -/
def size_int32 (q : QQueue T) : Option ℤ :=
  (int32 (q.rear_ - q.front_)).bind fun d =>
    (int32 (d + q.max_size_)).map fun e => e.tmod q.max_size_

/-- `(i+1)%max_size_` -/
def next_int32 (q : QQueue T) (i : ℕ) : Option ℤ :=
  (int32 (i + 1)).map fun j => j.tmod q.max_size_

/-- `(rear_+1)%max_size_==front_` -/
def full_int32 (q : QQueue T) : Option Bool :=
  (q.next_int32 q.rear_).map fun j => j == (q.front_ : ℤ)

/-- `clear()`. -/
def clear (q : QQueue T) : QQueue T :=
  { q with
    front_ := 0
    rear_ := 0
    front_lt := Nat.zero_lt_of_lt q.front_lt
    rear_lt := Nat.zero_lt_of_lt q.front_lt }

/-- The calls of the class; a cursor moves by `next_int32`. -/
def calls (T : Type) : Container (QQueue T) T where
  full := full_int32
  empty := empty
  store q item := (q.next_int32 q.rear_).map fun _ => q.store item
  take q := (q.next_int32 q.front_).map fun _ => (q.queue_ q.front_, q.advance)
  clear := clear

theorem calls_full (q : QQueue T) : (calls T).full q = q.full_int32 := by
  rw [calls]

theorem calls_store (q : QQueue T) (item : T) :
    (calls T).store q item = (q.next_int32 q.rear_).map fun _ => q.store item := by
  rw [calls]

theorem calls_take (q : QQueue T) :
    (calls T).take q = (q.next_int32 q.front_).map fun _ => (q.queue_ q.front_, q.advance) := by
  rw [calls]

/-- The queue of `n` cells stores the elements `xs`, and says so. -/
structure Stores (n : ℕ) (q : QQueue T) (xs : List T) : Prop where
  max_size : q.max_size_ = n
  elements : q.toList = xs
  bounded : xs.length ≤ n - 1
  size_eq : q.size_int32 = some (xs.length : ℤ)
  full_eq : q.full_int32 = some (xs.length == n - 1)
  empty_eq : q.empty = (xs.length == 0)

/-! ## §2. No operation overflows. -/

variable {q : QQueue T}

theorem next_int32_eq (hmax : q.max_size_ ≤ 2 ^ 30) {i : ℕ} (hi : i < q.max_size_) :
    q.next_int32 i = some (((i + 1) % q.max_size_ : ℕ) : ℤ) := by
  have h : int32 ((i : ℤ) + 1) = some ((i : ℤ) + 1) := int32_of_range (by omega) (by omega)
  unfold next_int32
  rw [h, map_some, ← Nat.cast_succ, ← Int.ofNat_tmod]

theorem full_int32_eq (hmax : q.max_size_ ≤ 2 ^ 30) : q.full_int32 = some q.full := by
  unfold full_int32 full
  rw [next_int32_eq hmax q.rear_lt, map_some, some_inj, Bool.eq_iff_iff, beq_iff_eq,
    beq_iff_eq, Nat.cast_inj]

theorem size_int32_eq (hmax : q.max_size_ ≤ 2 ^ 30) : q.size_int32 = some (q.size : ℤ) := by
  have hf := q.front_lt
  have hr := q.rear_lt
  -- both cursors are below 2^30, so that no sum leaves `int32_t`
  have hd : int32 ((q.rear_ : ℤ) - q.front_) = some ((q.rear_ : ℤ) - q.front_) :=
    int32_of_range (by omega) (by omega)
  have he : int32 ((q.rear_ : ℤ) - q.front_ + q.max_size_)
      = some ((q.rear_ : ℤ) - q.front_ + q.max_size_) := int32_of_range (by omega) (by omega)
  have hcast : (q.rear_ : ℤ) - q.front_ + q.max_size_
      = ((q.rear_ + q.max_size_ - q.front_ : ℕ) : ℤ) := by omega
  unfold size_int32 size
  rw [hd, bind_some, he, map_some, hcast, ← Int.ofNat_tmod]

theorem Stores.of_toList {n : ℕ} {xs : List T} (h2 : 2 ≤ n) (hn : n ≤ 2 ^ 30)
    (hmax : q.max_size_ = n) (helements : q.toList = xs) : Stores n q xs := by
  have hlen : q.size = xs.length := by
    rw [← helements, length_toList]
  have hlt := q.size_lt
  have hle : q.max_size_ ≤ 2 ^ 30 := by omega
  refine ⟨hmax, helements, by omega, ?_, ?_, ?_⟩
  · rw [size_int32_eq hle, hlen]
  · rw [full_int32_eq hle, some_inj, Bool.eq_iff_iff, full_iff, beq_iff_eq]
    omega
  · rw [Bool.eq_iff_iff, empty_iff, beq_iff_eq, hlen]

theorem clear_toList (q : QQueue T) : q.clear.toList = [] := by
  have hsize : q.clear.size = 0 := by
    rw [← empty_iff]
    rfl
  rw [← List.length_eq_zero_iff, length_toList, hsize]

/-! ## §3. Each call is the FIFO's. -/

section Steps

variable {n : ℕ} {xs : List T} (h2 : 2 ≤ n) (hn : n ≤ 2 ^ 30) (h : Stores n q xs)

include h2 hn h

theorem store_stores (item : T) (hroom : q.full_int32 = some false) :
    (calls T).store q item = some (q.store item) ∧ Stores n (q.store item) (xs ++ [item]) := by
  have hmax : q.max_size_ ≤ 2 ^ 30 := by
    rw [h.max_size]
    exact hn
  have hpush : q.push item = some (q.store item) := by
    rw [full_int32_eq hmax, some_inj] at hroom
    unfold push
    rw [hroom]
    rfl
  refine ⟨?_, Stores.of_toList h2 hn h.max_size ?_⟩
  · rw [calls_store, next_int32_eq hmax q.rear_lt, map_some]
  · rw [push_toList hpush, h.elements]

theorem take_stores (hsome : q.empty = false) :
    ∃ x xs', xs = x :: xs' ∧ (calls T).take q = some (x, q.advance) ∧ Stores n q.advance xs' := by
  have hmax : q.max_size_ ≤ 2 ^ 30 := by
    rw [h.max_size]
    exact hn
  have hpop : q.pop = some (q.queue_ q.front_, q.advance) := by
    unfold pop
    rw [hsome]
    rfl
  have hlist := pop_toList hpop
  rw [h.elements] at hlist
  refine ⟨_, _, hlist, ?_, Stores.of_toList h2 hn h.max_size rfl⟩
  rw [calls_take, next_int32_eq hmax q.front_lt, map_some]

/-- **EACH CALL IS THE FIFO'S.** -/
theorem step_matched (c : Container.Call T) :
    Matched (Stores n) ((calls T).step q c) ((Container.fifo (n - 1)).step xs c) := by
  have hfull : (calls T).full q = (Container.fifo (n - 1)).full xs := by
    rw [calls_full, h.full_eq]
    rfl
  refine Container.step_matched h hfull h.empty_eq
    (Stores.of_toList h2 hn h.max_size q.clear_toList) ?_ c ?_
  · intro item hroom
    obtain ⟨hstore, hstores⟩ := store_stores h2 hn h item (h.full_eq.trans hroom)
    exact ⟨_, _, hstore, rfl, hstores⟩
  · intro _ hsome
    obtain ⟨x, xs', rfl, htake, hstores⟩ := take_stores h2 hn h (h.empty_eq.trans hsome)
    exact ⟨x, _, xs', htake, rfl, hstores⟩

end Steps

/-- **EVERY HISTORY IS THE FIFO'S.** -/
theorem history_fifo (mem : ℕ → T) (n : ℕ) (h2 : 2 ≤ n) (hn : n ≤ 2 ^ 30)
    (cs : List (Container.Call T)) :
    ∃ q, init mem n = some q ∧
      Matched (Stores n) (history (calls T).step q cs)
        (history (Container.fifo (n - 1)).step [] cs) := by
  have hpos : ¬ (n : ℤ) ≤ 0 := by omega
  obtain ⟨q, hq⟩ : ∃ q, init mem (n : ℤ) = some q := ⟨_, dif_neg hpos⟩
  obtain ⟨hlist, hmax⟩ := init_toList hq
  have hstart : Stores n q [] := Stores.of_toList h2 hn (by exact_mod_cast hmax) hlist
  exact ⟨q, hq, Matched.history (fun s t l h => step_matched h2 hn h l) hstart cs⟩

/-- Three cells: filled, wrapped around, cleared. -/
theorem history_fifo_three :
    ∃ q, init (fun _ => 0) (3 : ℕ) = some q ∧
      Matched (Stores 3)
        (history (calls ℕ).step q [.push 1, .push_non_blocking 2, .push_non_blocking 3, .pop, .push 4,
          .clear, .pop_non_blocking])
        (history (Container.fifo 2).step [] [.push 1, .push_non_blocking 2, .push_non_blocking 3,
          .pop, .push 4, .clear, .pop_non_blocking]) :=
  history_fifo _ 3 (by decide) (by decide) _

end KalavaPir.Common.QQueue
