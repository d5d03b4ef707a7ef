/-
  KalavaPir.Framework.Stores — what a function stores through a pointer.

  A log lists the stores, oldest first: how far from the pointer, and the value.
  It says what the buffer holds afterwards (`after`) and how far the function
  has written (`Inside`), however large the buffer really is.
-/
import Mathlib.Data.List.Basic

namespace KalavaPir.Framework

open List

variable {α : Type}

/-- Positions and what is stored there, in their order. -/
abbrev Stores (α : Type) : Type := List (ℕ × α)

namespace Stores

/-- The values `xs` one after the other, the first at `p`. -/
def fill (p : ℕ) : List α → Stores α
  | [] => []
  | x :: xs => (p, x) :: fill (p + 1) xs

/-- The buffer after the stores. -/
def after (log : Stores α) (buf : ℕ → α) : ℕ → α :=
  log.foldl (fun b w => Function.update b w.1 w.2) buf

/-- Nothing is stored at a distance of `n` or more. -/
def Inside (n : ℕ) (log : Stores α) : Prop := ∀ w ∈ log, w.1 < n

instance (n : ℕ) (log : Stores α) : Decidable (Inside n log) :=
  inferInstanceAs (Decidable (∀ w ∈ log, w.1 < n))

/-- The first `n` values of a buffer. -/
def contents (buf : ℕ → α) (n : ℕ) : List α := (List.range n).map buf

theorem fill_append (p : ℕ) (xs ys : List α) : fill p (xs ++ ys) = fill p xs ++ fill (p + xs.length) ys := by
  induction xs generalizing p with
  | nil => rfl
  | cons x xs ih =>
    rw [cons_append, fill, fill, cons_append, ih, length_cons,
      show p + 1 + xs.length = p + (xs.length + 1) by omega]

/-! ## §1. How far a log reaches. -/

@[simp] theorem inside_nil (n : ℕ) : Inside n ([] : Stores α) := fun _ hw => absurd hw not_mem_nil

variable {n : ℕ} {log : Stores α} {xs : List α}

variable {w : ℕ × α} {p i : ℕ} {buf : ℕ → α}

@[simp] theorem inside_cons : Inside n (w :: log) ↔ w.1 < n ∧ Inside n log := forall_mem_cons

@[simp] theorem inside_append {log' : Stores α} : Inside n (log ++ log') ↔ Inside n log ∧ Inside n log' := by
  exact forall_mem_append

/-- **Where a run of values ends.** -/
theorem inside_fill : Inside n (fill p xs) ↔ xs = [] ∨ p + xs.length ≤ n := by
  induction xs generalizing p with
  | nil => simp [fill]
  | cons x xs ih =>
    rw [fill, inside_cons, ih]
    simp only [length_cons, reduceCtorEq, false_or]
    constructor
    · intro h
      obtain ⟨hp, hnil | hlen⟩ := h
      · rw [hnil, length_nil]
        omega
      · omega
    · intro h
      exact ⟨by omega, Or.inr (by omega)⟩

/-! ## §2. What a buffer holds. -/

@[simp] theorem length_contents (buf : ℕ → α) (n : ℕ) : (contents buf n).length = n := by
  simp [contents]

theorem contents_succ (buf : ℕ → α) (n : ℕ) : contents buf (n + 1) = contents buf n ++ [buf n] := by
  unfold contents
  rw [range_succ, map_append, map_singleton]

theorem contents_congr {buf' : ℕ → α} (h : ∀ i < n, buf i = buf' i) :
    contents buf n = contents buf' n := by
  apply map_congr_left
  intro i hi
  exact h i (mem_range.mp hi)

theorem after_append (log log' : Stores α) (buf : ℕ → α) :
    after (log ++ log') buf = log'.after (log.after buf) := foldl_append

theorem after_cons (w : ℕ × α) (log : Stores α) (buf : ℕ → α) :
    after (w :: log) buf = log.after (Function.update buf w.1 w.2) := rfl

theorem after_of_notMem (h : ∀ w ∈ log, w.1 ≠ i) (buf : ℕ → α) : log.after buf i = buf i := by
  induction log generalizing buf with
  | nil => rfl
  | cons w log ih =>
    rw [after_cons, ih (fun x hx => h x (mem_cons_of_mem w hx)),
      Function.update_of_ne (Ne.symm (h w mem_cons_self))]

theorem fst_of_mem_fill (h : w ∈ fill p xs) : p ≤ w.1 ∧ w.1 < p + xs.length := by
  induction xs generalizing p with
  | nil => exact absurd h not_mem_nil
  | cons x xs ih =>
    rw [fill, mem_cons] at h
    rw [length_cons]
    rcases h with hw | h
    · rw [hw]
      omega
    · have hin := ih h
      omega

/-- The run of values stands where it was stored. -/
theorem after_fill (hi : i < xs.length) (buf : ℕ → α) : (fill p xs).after buf (p + i) = xs[i] := by
  induction xs generalizing p i buf with
  | nil => exact absurd hi (Nat.not_lt_zero i)
  | cons x xs ih =>
    rw [fill, after_cons]
    cases i with
    | zero =>
      -- the values behind it are stored behind it
      rw [after_of_notMem (fun w hw => by have hin := fst_of_mem_fill hw; omega)]
      show Function.update buf p x p = x
      exact Function.update_self p x buf
    | succ i =>
      rw [show p + (i + 1) = p + 1 + i by omega, ih (by simpa using hi)]
      rfl

/-- **A run of values is read back.** -/
theorem contents_fill (xs : List α) (buf : ℕ → α) : contents ((fill 0 xs).after buf) xs.length = xs := by
  unfold contents
  apply ext_getElem
  · simp
  · intro i hi hi'
    rw [getElem_map, getElem_range]
    have hfill := after_fill (p := 0) hi' buf
    rw [Nat.zero_add] at hfill
    exact hfill

theorem getElem_contents (hi : i < (contents buf n).length) :
    (contents buf n)[i] = buf i := by
  simp only [contents, getElem_map, getElem_range]

/-- A run of values behind what is there. -/
theorem contents_add_fill (p : ℕ) (xs : List α) (buf : ℕ → α) :
    contents ((fill p xs).after buf) (p + xs.length) = contents buf p ++ xs := by
  apply ext_getElem
  · simp
  · intro i hi hi'
    rw [getElem_contents]
    rw [length_contents] at hi
    by_cases hip : i < p
    · have hout : ∀ w ∈ fill p xs, w.1 ≠ i := fun w hw => by
        have hin := fst_of_mem_fill hw
        omega
      rw [getElem_append_left (by simpa using hip), getElem_contents, after_of_notMem hout]
    have hback : p + (i - p) = i := by omega
    have hlt : i - p < xs.length := by omega
    have hfill := after_fill (p := p) hlt buf
    rw [hback] at hfill
    rw [getElem_append_right (by simpa using hip), hfill]
    simp

end Stores

end KalavaPir.Framework
