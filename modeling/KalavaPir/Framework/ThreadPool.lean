/-
  KalavaPir.Framework.ThreadPool — any number of threads over one shared state.

  A configuration is a shared state and a pool of threads; thread `i` is the
  one at position `i`, and it keeps that position for ever (a finished thread
  stays where it is).  One step runs one atomic statement of one thread, which
  may change the shared state, the thread itself, and append new threads; or a
  request arrives from outside and its handler joins the pool.

  The proof rule is assertion-and-non-interference, for a pool of ANY size: a
  global assertion `G` on the shared state, a local assertion `P` on each
  thread at its current control point, and three kinds of obligations — the
  moving thread re-establishes both, every other thread's assertion survives
  the move (non-interference), and a thread that joins the pool starts in its
  assertion.
-/
import Mathlib.Algebra.Order.BigOperators.Group.List
import KalavaPir.Framework.Runs

namespace KalavaPir.Framework

open List

/-- A shared state and the threads that work on it. -/
structure Conf (σ τ : Type) where
  shared : σ
  pool : List τ

/-- What happens next: a request `r` arrives, or thread `i` executes one
    statement and the outside world answers it with `o`. -/
inductive Move (ρ ο : Type) where
  | arrive (r : ρ)
  | run (i : ℕ) (o : ο)
  deriving DecidableEq, Repr

/-- Everything that says how a pool works: `exec s i t o` runs the next
    statement of thread `t` (at position `i`) and returns the new shared state,
    the new thread and the threads it started; `entry r` is the thread that
    serves the request `r`. -/
structure Machine (σ τ ρ ο : Type) where
  exec : σ → ℕ → τ → ο → Option (σ × τ × List τ)
  entry : ρ → τ

namespace Machine

variable {σ τ ρ ο : Type} (M : Machine σ τ ρ ο)

/-- One step of the pool. -/
def step (c : Conf σ τ) : Move ρ ο → Option (Conf σ τ)
  | .arrive r => some { c with pool := c.pool ++ [M.entry r] }
  | .run i o =>
    match c.pool[i]? with
    | none => none
    | some t =>
      match M.exec c.shared i t o with
      | none => none
      | some (s', t', new) => some { shared := s', pool := c.pool.set i t' ++ new }

/-! ## §1. What a step does to the pool. -/

variable {c : Conf σ τ}

/-- **Inversion of a step.** -/
theorem step_cases {c' : Conf σ τ} {m : Move ρ ο} (h : M.step c m = some c') :
    (∃ r, m = .arrive r ∧ c' = { c with pool := c.pool ++ [M.entry r] }) ∨
    (∃ i o t s' t' new, m = .run i o ∧ c.pool[i]? = some t ∧
      M.exec c.shared i t o = some (s', t', new) ∧
      c' = { shared := s', pool := c.pool.set i t' ++ new }) := by
  cases m with
  | arrive r =>
    left
    simp only [step, Option.some.injEq] at h
    exact ⟨r, rfl, h.symm⟩
  | run i o =>
    right
    simp only [step] at h
    cases ht : c.pool[i]? with
    | none => simp [ht] at h
    | some t =>
      simp only [ht] at h
      cases hx : M.exec c.shared i t o with
      | none => simp [hx] at h
      | some r =>
        obtain ⟨s', t', new⟩ := r
        simp only [hx, Option.some.injEq] at h
        exact ⟨i, o, t, s', t', new, rfl, ht, hx, h.symm⟩

theorem step_run {i : ℕ} {o : ο} {t t' : τ} {s' : σ} {new : List τ} (ht : c.pool[i]? = some t)
    (hx : M.exec c.shared i t o = some (s', t', new)) :
    M.step c (.run i o) = some { shared := s', pool := c.pool.set i t' ++ new } := by
  simp [step, ht, hx]

end Machine

section Lookup

variable {τ : Type}

variable {pool new : List τ} {i j : ℕ} {t' u t : τ}

theorem lookup_set (hu : (pool.set i t')[j]? = some u) : (j = i ∧ u = t') ∨ (j ≠ i ∧ pool[j]? = some u) := by
  by_cases hji : j = i
  · subst hji
    left
    rw [getElem?_set] at hu
    simp only [if_true] at hu
    split at hu
    · exact ⟨rfl, (Option.some.inj hu).symm⟩
    · exact absurd hu (by simp)
  · right
    rw [getElem?_set_ne (fun h => hji h.symm)] at hu
    exact ⟨hji, hu⟩

theorem lookup_set_self (ht : pool[i]? = some t) : (pool.set i t')[i]? = some t' :=
  List.getElem?_set_self (List.getElem?_eq_some_iff.mp ht).1

theorem lookup_set_ne (hne : j ≠ i) (hu : pool[j]? = some u) : (pool.set i t')[j]? = some u := by
  rw [getElem?_set_ne (fun h => hne h.symm)]
  exact hu

theorem pool_lookup (hu : (pool.set i t' ++ new)[j]? = some u) :
    (j = i ∧ u = t') ∨ (j ≠ i ∧ pool[j]? = some u) ∨ (pool.length ≤ j ∧ u ∈ new) := by
  by_cases hj : j < pool.length
  · rw [getElem?_append_left (by simpa using hj)] at hu
    rcases lookup_set hu with h | h
    · exact Or.inl h
    · exact Or.inr (Or.inl h)
  · rw [getElem?_append_right (by simpa using Nat.le_of_not_lt hj)] at hu
    exact Or.inr (Or.inr ⟨Nat.le_of_not_lt hj, mem_of_getElem? hu⟩)

theorem pool_lookup_self (ht : pool[i]? = some t) : (pool.set i t' ++ new)[i]? = some t' := by
  have hi : i < pool.length := (List.getElem?_eq_some_iff.mp ht).1
  rw [getElem?_append_left (by simpa using hi)]
  exact lookup_set_self ht

theorem pool_lookup_ne (hne : j ≠ i) (hu : pool[j]? = some u) : (pool.set i t' ++ new)[j]? = some u := by
  have hj : j < pool.length := (List.getElem?_eq_some_iff.mp hu).1
  rw [getElem?_append_left (by simpa using hj)]
  exact lookup_set_ne hne hu

/-- Who stands at position `j` after a request arrived. -/
theorem pool_lookup_arrive (hu : (pool ++ [t])[j]? = some u) :
    pool[j]? = some u ∨ (j = pool.length ∧ u = t) := by
  by_cases hj : j < pool.length
  · rw [getElem?_append_left hj] at hu
    exact Or.inl hu
  rw [getElem?_append_right (Nat.le_of_not_lt hj)] at hu
  right
  -- the appended list has one element, so `j` is right behind the old pool
  have hz : j - pool.length = 0 := by
    by_contra hne
    rw [getElem?_eq_none (by simp; omega)] at hu
    simp at hu
  rw [hz] at hu
  simp at hu
  exact ⟨by omega, hu.symm⟩

theorem lookup_arrive (hu : pool[j]? = some u) : (pool ++ [t])[j]? = some u := by
  rw [List.getElem?_append_left (List.getElem?_eq_some_iff.mp hu).1]
  exact hu

variable {M : Type}

/-- A sum over the pool after thread `i` moved. -/
theorem pool_sum_set [AddCommMonoid M] (f : τ → M) :
    ∀ {pool : List τ} {i : ℕ} {t : τ} (t' : τ), pool[i]? = some t →
      ((pool.set i t').map f).sum + f t = (pool.map f).sum + f t'
  | [], _, _, _, h => by simp at h
  | u :: pool, 0, t, t', h => by
    simp only [getElem?_cons_zero, Option.some.injEq] at h
    subst h
    simp only [set_cons_zero, map_cons, sum_cons]
    -- both sides are the same three summands
    rw [add_right_comm, add_comm (f t'), add_right_comm]
  | u :: pool, i + 1, t, t', h => by
    simp only [getElem?_cons_succ] at h
    have ih := pool_sum_set f t' h
    simp only [set_cons_succ, map_cons, sum_cons]
    rw [add_assoc, ih, add_assoc]

/-- The summand of thread `i`, set apart from the others. -/
theorem pool_sum_split [AddCommMonoid M] (f : τ → M) :
    ∀ {pool : List τ} {i : ℕ} {t : τ}, pool[i]? = some t →
      ∃ rest, (pool.map f).sum = f t + rest ∧ ∀ t', ((pool.set i t').map f).sum = f t' + rest
  | [], _, _, h => by simp at h
  | u :: pool, 0, t, h => by
    simp only [getElem?_cons_zero, Option.some.injEq] at h
    subst h
    exact ⟨(pool.map f).sum, by simp, fun t' => by simp⟩
  | u :: pool, i + 1, t, h => by
    simp only [getElem?_cons_succ] at h
    obtain ⟨rest, hsum, hset⟩ := pool_sum_split f h
    refine ⟨f u + rest, ?_, fun t' => ?_⟩
    · rw [map_cons, sum_cons, hsum, add_left_comm]
    · rw [set_cons_succ, map_cons, sum_cons, hset, add_left_comm]

/-- Two threads of the pool contribute both their summands. -/
theorem pool_add_le_sum [AddCommMonoid M] [PartialOrder M] [IsOrderedAddMonoid M] [CanonicallyOrderedAdd M]
    (f : τ → M) (hne : i ≠ j) (ht : pool[i]? = some t) (hu : pool[j]? = some u) :
    f t + f u ≤ (pool.map f).sum := by
  have hone : ∀ {l : List τ} {k : ℕ} {v : τ}, l[k]? = some v → f v ≤ (l.map f).sum := by
    intro l k v hv
    exact le_sum_of_mem (mem_map_of_mem (mem_of_getElem? hv))
  induction pool generalizing i j with
  | nil => simp at ht
  | cons v pool ih =>
    -- the head is one of the two, or both lie behind it
    cases i with
    | zero =>
      cases j with
      | zero => exact absurd rfl hne
      | succ j =>
        rw [getElem?_cons_zero, Option.some.injEq] at ht
        rw [getElem?_cons_succ] at hu
        subst ht
        exact add_le_add_right (hone hu) _
    | succ i =>
      cases j with
      | zero =>
        rw [getElem?_cons_zero, Option.some.injEq] at hu
        rw [getElem?_cons_succ] at ht
        subst hu
        rw [add_comm]
        exact add_le_add_right (hone ht) _
      | succ j =>
        exact (ih (by omega) ht hu).trans le_add_self

end Lookup

/-- Every thread but the one at position `i` satisfies `P`. -/
def Conf.Others {σ τ : Type} (c : Conf σ τ) (i : ℕ) (P : τ → Prop) : Prop :=
  ∀ p ∈ c.pool.zipIdx, p.2 ≠ i → P p.1

instance {σ τ : Type} (c : Conf σ τ) (i : ℕ) (P : τ → Prop) [DecidablePred P] :
    Decidable (c.Others i P) :=
  inferInstanceAs (Decidable (∀ p ∈ c.pool.zipIdx, p.2 ≠ i → P p.1))

theorem Conf.Others.at {σ τ : Type} {c : Conf σ τ} {i j : ℕ} {P : τ → Prop} {u : τ}
    (h : c.Others i P) (hne : j ≠ i) (hu : c.pool[j]? = some u) : P u :=
  h (u, j) (mk_mem_zipIdx_iff_getElem?.mpr hu) hne

/-! ## §2. The proof rule. -/

/-- A global assertion on the shared state and a local one on every thread. -/
structure Annotated {σ τ : Type} (G : σ → Prop) (P : σ → ℕ → τ → Prop)
    (c : Conf σ τ) : Prop where
  global : G c.shared
  local_ : ∀ i t, c.pool[i]? = some t → P c.shared i t

/-- **The proof rule, one step.** -/
theorem Annotated.step {σ τ ρ ο : Type} (M : Machine σ τ ρ ο)
    (ok : Conf σ τ → Move ρ ο → Prop) {G : σ → Prop} {P : σ → ℕ → τ → Prop}
    -- the moving thread keeps the global and its own assertion, and starts
    -- its children in theirs
    (hown : ∀ c i o t s' t' new, Annotated G P c → ok c (.run i o) → c.pool[i]? = some t →
      M.exec c.shared i t o = some (s', t', new) → G s' ∧ P s' i t' ∧ ∀ j u, u ∈ new → P s' j u)
    -- non-interference
    (hother : ∀ c i o t s' t' new, Annotated G P c → ok c (.run i o) → c.pool[i]? = some t →
      M.exec c.shared i t o = some (s', t', new) → ∀ j u, j ≠ i → c.pool[j]? = some u → P s' j u)
    (hentry : ∀ c r j, Annotated G P c → P c.shared j (M.entry r))
    {c c' : Conf σ τ} {m : Move ρ ο} (hc : Annotated G P c) (hok : ok c m)
    (hstep : M.step c m = some c') : Annotated G P c' := by
  rcases M.step_cases hstep with ⟨r, rfl, rfl⟩ | ⟨i, o, t, s', t', new, rfl, ht, hx, rfl⟩
  · refine ⟨hc.global, fun j u hu => ?_⟩
    rcases pool_lookup_arrive hu with hold | ⟨_, rfl⟩
    · exact hc.local_ j u hold
    · exact hentry c r j hc
  obtain ⟨hG, hself, hnew⟩ := hown c i o t s' t' new hc hok ht hx
  refine ⟨hG, fun j u hu => ?_⟩
  rcases pool_lookup hu with ⟨rfl, rfl⟩ | ⟨hne, hold⟩ | ⟨_, hmem⟩
  · exact hself
  · exact hother c i o t s' t' new hc hok ht hx j u hne hold
  · exact hnew j u hmem

end KalavaPir.Framework
