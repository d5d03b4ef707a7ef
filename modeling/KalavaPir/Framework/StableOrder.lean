/-
  KalavaPir.Framework.StableOrder — stable sorting, one element at a time.

  `r` is total and transitive, so two elements may each come before the other
  without being equal.  `List.insertionSort r` is stable: such elements keep the
  order they have in the list.
-/
import Mathlib.Data.List.Sort
import Mathlib.Data.List.Find

namespace KalavaPir.Framework

open List

variable {A : Type} (r : A → A → Prop) [DecidableRel r]

/-! ## §1. A last element. -/

/-- `x` goes behind the elements it may follow, up to the first it may not. -/
def insertLast (x : A) : List A → List A
  | [] => [x]
  | b :: l => if r b x then b :: insertLast x l else x :: b :: l

theorem insertLast_append {x : A} {l₁ l₂ : List A} (h₁ : ∀ b ∈ l₁, r b x)
    (h₂ : ∀ b ∈ l₂, ¬ r b x) : insertLast r x (l₁ ++ l₂) = l₁ ++ x :: l₂ := by
  induction l₁ with
  | nil =>
    cases l₂ with
    | nil => rfl
    | cons b l₂ =>
      rw [nil_append, insertLast, if_neg (h₂ b mem_cons_self)]
      rfl
  | cons b l₁ ih =>
    rw [cons_append, insertLast, if_pos (h₁ b mem_cons_self),
      ih (fun c hc => h₁ c (mem_cons_of_mem b hc))]
    rfl

variable [Std.Total r] [IsTrans A r]

/-- What is in front of `l` stays in front of what comes after `l`. -/
theorem orderedInsert_insertLast (a x : A) (l : List A) :
    (insertLast r x l).orderedInsert r a = insertLast r x (l.orderedInsert r a) := by
  induction l with
  | nil =>
    simp only [insertLast, orderedInsert_nil, orderedInsert_cons]
  | cons b l ih =>
    by_cases hab : r a b
    · by_cases hbx : r b x
      · have hax : r a x := IsTrans.trans a b x hab hbx
        simp only [insertLast, orderedInsert_cons, if_pos hab, if_pos hbx, if_pos hax]
      · by_cases hax : r a x
        · simp only [insertLast, orderedInsert_cons, if_pos hab, if_neg hbx, if_pos hax]
        · simp only [insertLast, orderedInsert_cons, if_pos hab, if_neg hbx, if_neg hax]
    by_cases hbx : r b x
    · simp only [insertLast, orderedInsert_cons, if_neg hab, if_pos hbx, ih]
    have hax : ¬ r a x := by
      intro hax
      have hba : r b a := (Std.Total.total a b).resolve_left hab
      exact hbx (IsTrans.trans b a x hba hax)
    simp only [insertLast, orderedInsert_cons, if_neg hab, if_neg hbx, if_neg hax]

/-- **A last element goes behind all it may follow.** -/
theorem insertionSort_concat (xs : List A) (x : A) :
    (xs ++ [x]).insertionSort r = insertLast r x (xs.insertionSort r) := by
  induction xs with
  | nil => rfl
  | cons a xs ih =>
    rw [cons_append, insertionSort_cons, ih, orderedInsert_insertLast,
      insertionSort_cons]

/-! ## §2. The first of the sorted list. -/

omit r [DecidableRel r] [Std.Total r] [IsTrans A r] in
theorem eraseP_congr {p q : A → Bool} {l : List A} (h : ∀ x ∈ l, p x = q x) : l.eraseP p = l.eraseP q := by
  induction l with
  | nil => rfl
  | cons a l ih =>
    rw [eraseP_cons, eraseP_cons, h a mem_cons_self,
      ih fun x hx => h x (mem_cons_of_mem a hx)]

/-- `x` may come before all of `xs`. -/
def leads (xs : List A) (x : A) : Bool := xs.all fun y => r x y

variable {r}

omit [Std.Total r] [IsTrans A r] in
theorem leads_iff {xs : List A} {x : A} : leads r xs x = true ↔ ∀ y ∈ xs, r x y := by
  rw [leads, all_eq_true]
  simp only [decide_eq_true_iff]

omit [Std.Total r] [IsTrans A r] in
theorem leads_cons {xs : List A} {a x : A} : leads r (a :: xs) x = (decide (r x a) && leads r xs x) := rfl

variable (r)

/-- **The earliest element that may come before all others comes first.** -/
theorem insertionSort_uncons (xs : List A) : (xs = [] ∧ xs.find? (leads r xs) = none) ∨
      ∃ x, xs.find? (leads r xs) = some x ∧
        xs.insertionSort r = x :: (xs.eraseP (leads r xs)).insertionSort r := by
  induction xs with
  | nil => exact Or.inl ⟨rfl, rfl⟩
  | cons a xs ih =>
    right
    obtain ⟨rfl, -⟩ | ⟨x, hfind, hsort⟩ := ih
    · have haa : r a a := (Std.Total.total a a).elim id id
      have ha : leads r [a] a = true := by
        rw [leads_iff]
        simpa using haa
      exact ⟨a, find?_cons_of_pos ha, by rw [eraseP_cons_of_pos ha]; rfl⟩
    have hx : ∀ y ∈ xs, r x y := leads_iff.mp (find?_some hfind)
    have hmem : x ∈ xs := mem_of_find?_eq_some hfind
    by_cases hax : r a x
    · -- `a` is in front, and nothing it ties with is earlier
      have ha : leads r (a :: xs) a = true := by
        rw [leads_iff, forall_mem_cons]
        exact ⟨(Std.Total.total a a).elim id id, fun y hy => IsTrans.trans a x y hax (hx y hy)⟩
      refine ⟨a, find?_cons_of_pos ha, ?_⟩
      rw [eraseP_cons_of_pos ha, insertionSort_cons, hsort,
        orderedInsert_cons, if_pos hax]
    -- the tail's leaders all come before `a`
    have hxa : r x a := (Std.Total.total a x).resolve_left hax
    have ha : ¬ leads r (a :: xs) a = true := by
      rw [leads_iff]
      exact fun h => hax (h x (mem_cons_of_mem a hmem))
    have hsame : ∀ y ∈ xs, leads r (a :: xs) y = leads r xs y := by
      intro y _
      rw [leads_cons, Bool.eq_iff_iff, Bool.and_eq_true, decide_eq_true_iff, leads_iff]
      exact ⟨fun h => h.2, fun h => ⟨IsTrans.trans y x a (h x hmem) hxa, h⟩⟩
    have hfind' : xs.find? (leads r (a :: xs)) = some x := by
      rw [← hfind]
      exact find?_congr hsame
    have herase : xs.eraseP (leads r (a :: xs)) = xs.eraseP (leads r xs) := eraseP_congr hsame
    refine ⟨x, by rw [find?_cons_of_neg ha, hfind'], ?_⟩
    rw [eraseP_cons_of_neg ha, insertionSort_cons, insertionSort_cons, hsort,
      orderedInsert_cons, if_neg hax, herase]

end KalavaPir.Framework
