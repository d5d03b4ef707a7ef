/-
  KalavaPir.Framework.Nesting — brackets with labels.

  A list of brackets is BALANCED if it is built from pairs with the same label
  around balanced lists, and NESTED if a stack of the open labels accepts it.
  The depth counts the open brackets.
-/
import Mathlib.Algebra.BigOperators.Group.List.Basic
import Mathlib.Algebra.Order.Ring.Int

namespace KalavaPir.Framework

open List

/-- A bracket with a label, or something else. -/
inductive Bracket (α : Type) where
  | opening (a : α)
  | closing (a : α)
  | neither
  deriving DecidableEq, Repr

variable {α : Type}

/-! ## §1. The depth. -/

/-- How the depth changes. -/
def Bracket.delta : Bracket α → ℤ
  | opening _ => 1
  | closing _ => -1
  | neither => 0

/-- How many brackets are open at the end. -/
def depth (l : List (Bracket α)) : ℤ := (l.map Bracket.delta).sum

theorem depth_cons (b : Bracket α) (l : List (Bracket α)) : depth (b :: l) = b.delta + depth l := by
  rfl

theorem depth_append (l l' : List (Bracket α)) : depth (l ++ l') = depth l + depth l' := by
  rw [depth, map_append, sum_append]
  rfl

/-! ## §2. Balanced lists. -/

/-- Pairs with one label around balanced lists, one after the other. -/
inductive Balanced : List (Bracket α) → Prop
  | nil : Balanced []
  | neither {l : List (Bracket α)} (h : Balanced l) : Balanced (.neither :: l)
  | pair (a : α) {inner l : List (Bracket α)} (hinner : Balanced inner) (h : Balanced l) :
      Balanced (.opening a :: (inner ++ .closing a :: l))

variable {l : List (Bracket α)}

theorem Balanced.append {l' : List (Bracket α)} (h : Balanced l) (h' : Balanced l') : Balanced (l ++ l') := by
  induction h with
  | nil => exact h'
  | neither _ ih => exact ih.neither
  | pair a hinner _ _ ih =>
    rw [cons_append, append_assoc, cons_append]
    exact .pair a hinner ih

theorem Balanced.depth (h : Balanced l) : depth l = 0 := by
  induction h with
  | nil => rfl
  | neither _ ih =>
    rw [depth_cons, ih]
    rfl
  | pair a _ _ ihinner ih =>
    rw [depth_cons, depth_append, depth_cons, ihinner, ih]
    rfl

/-! ## §3. Nested lists. -/

/-- The stack of open labels accepts the list. -/
def nestedIn [DecidableEq α] : List α → List (Bracket α) → Bool
  | stack, [] => stack.isEmpty
  | stack, .opening a :: l => nestedIn (a :: stack) l
  | [], .closing _ :: _ => false
  | b :: stack, .closing a :: l => b = a && nestedIn stack l
  | stack, .neither :: l => nestedIn stack l

/-- **A balanced list** leaves the stack as it is. -/
theorem Balanced.nestedIn [DecidableEq α] (h : Balanced l) : ∀ (stack : List α) (l' : List (Bracket α)),
      nestedIn stack (l ++ l') = nestedIn stack l' := by
  induction h with
  | nil => exact fun _ _ => rfl
  | neither _ ih =>
    intro stack l'
    rw [cons_append]
    cases stack with
    | nil => exact ih [] l'
    | cons b stack => exact ih (b :: stack) l'
  | pair a _ _ ihinner ih =>
    intro stack l'
    rw [cons_append, append_assoc, cons_append]
    cases stack with
    | nil =>
      rw [Framework.nestedIn, ihinner, Framework.nestedIn, decide_eq_true rfl, Bool.true_and, ih]
    | cons b stack =>
      rw [Framework.nestedIn, ihinner, Framework.nestedIn, decide_eq_true rfl, Bool.true_and, ih]

/-- **Every prefix** of a nested list closes at most what is open, and in the end
    nothing is. -/
theorem depth_of_nestedIn [DecidableEq α] : ∀ {l : List (Bracket α)} {stack : List α},
    nestedIn stack l = true →
      stack.length + depth l = 0 ∧ ∀ pre, pre <+: l → 0 ≤ (stack.length : ℤ) + depth pre := by
  intro l
  induction l with
  | nil =>
    intro stack h
    have hempty : stack = [] := by
      cases stack with
      | nil => rfl
      | cons b stack => cases h
    subst hempty
    refine ⟨rfl, fun pre hpre => ?_⟩
    rw [prefix_nil.mp hpre]
    exact le_rfl
  | cons b l ih =>
    intro stack h
    -- what the stack is behind the first bracket
    obtain ⟨stack', hrest, hlen⟩ : ∃ stack' : List α, nestedIn stack' l = true ∧
        (stack'.length : ℤ) = stack.length + b.delta := by
      cases b with
      | opening a =>
        cases stack with
        | nil => exact ⟨[a], h, by rw [length_singleton]; rfl⟩
        | cons c stack => exact ⟨a :: c :: stack, h, by rw [length_cons]; rfl⟩
      | closing a =>
        cases stack with
        | nil => cases h
        | cons c stack =>
          rw [nestedIn, Bool.and_eq_true] at h
          refine ⟨stack, h.2, ?_⟩
          rw [length_cons, Bracket.delta]
          omega
      | neither =>
        cases stack with
        | nil => exact ⟨[], h, rfl⟩
        | cons c stack => exact ⟨c :: stack, h, by rw [Bracket.delta, add_zero]⟩
    obtain ⟨htotal, hprefix⟩ := ih hrest
    refine ⟨by rw [depth_cons]; omega, fun pre hpre => ?_⟩
    rcases prefix_cons_iff.mp hpre with rfl | ⟨pre', rfl, hpre'⟩
    · exact add_nonneg (Int.natCast_nonneg _) le_rfl
    · have hle := hprefix pre' hpre'
      rw [depth_cons]
      omega

end KalavaPir.Framework
