/-
  KalavaPir.Framework.EditDistance — how many edits turn one list into another.

  An edit inserts, deletes or replaces one element anywhere.  Edits in any order
  come down to an alignment, which goes through both lists once from left to right;
  and of the alignments of two lists with the same head one of the shortest keeps it.
-/
import Mathlib.Data.List.Basic
import Mathlib.Order.Bounds.Basic
import Mathlib.Order.MinMax

namespace KalavaPir.Framework

variable {α : Type} {xs ys zs : List α} {a b : α} {m n : ℕ}

/-! ## §1. Edits. -/

/-- One element is inserted, deleted or replaced. -/
inductive SingleEdit : List α → List α → Prop
  | insert (front back : List α) (a : α) : SingleEdit (front ++ back) (front ++ a :: back)
  | delete (front back : List α) (a : α) : SingleEdit (front ++ a :: back) (front ++ back)
  | replace (front back : List α) (a b : α) : SingleEdit (front ++ a :: back) (front ++ b :: back)

/-- `n` edits one after the other. -/
def Edits : ℕ → List α → List α → Prop
  | 0, xs, ys => xs = ys
  | n + 1, xs, zs => ∃ ys, SingleEdit xs ys ∧ Edits n ys zs

theorem SingleEdit.cons (a : α) (h : SingleEdit xs ys) : SingleEdit (a :: xs) (a :: ys) := by
  cases h with
  | insert front back b => exact .insert (a :: front) back b
  | delete front back b => exact .delete (a :: front) back b
  | replace front back b c => exact .replace (a :: front) back b c

theorem Edits.cons (a : α) (h : Edits n xs ys) : Edits n (a :: xs) (a :: ys) := by
  induction n generalizing xs with
  | zero => exact congrArg (a :: ·) h
  | succ n ih =>
    obtain ⟨zs, hone, hrest⟩ := h
    exact ⟨a :: zs, hone.cons a, ih hrest⟩

/-! ## §2. Alignments. -/

/-- One list is turned into the other from left to right, with `n` edits. -/
inductive Alignment : ℕ → List α → List α → Prop
  | nil : Alignment 0 [] []
  | keep {n : ℕ} {xs ys : List α} (a : α) (h : Alignment n xs ys) : Alignment n (a :: xs) (a :: ys)
  | replace {n : ℕ} {xs ys : List α} (a b : α) (h : Alignment n xs ys) : Alignment (n + 1) (a :: xs) (b :: ys)
  | insert {n : ℕ} {xs ys : List α} (b : α) (h : Alignment n xs ys) : Alignment (n + 1) xs (b :: ys)
  | delete {n : ℕ} {xs ys : List α} (a : α) (h : Alignment n xs ys) : Alignment (n + 1) (a :: xs) ys

theorem Alignment.refl : ∀ xs : List α, Alignment 0 xs xs
  | [] => .nil
  | a :: xs => .keep a (Alignment.refl xs)

theorem Alignment.symm (h : Alignment n xs ys) : Alignment n ys xs := by
  induction h with
  | nil => exact .nil
  | keep a _ ih => exact .keep a ih
  | replace a b _ ih => exact .replace b a ih
  | insert b _ ih => exact .delete b ih
  | delete a _ ih => exact .insert a ih

theorem Alignment.eq_of_zero (h : Alignment 0 xs ys) : xs = ys := by
  generalize hn : 0 = n at h
  induction h with
  | nil => rfl
  | keep a _ ih => rw [ih hn]
  | replace a b _ _ => cases hn
  | insert b _ _ => cases hn
  | delete a _ _ => cases hn

theorem Alignment.edits (h : Alignment n xs ys) : Edits n xs ys := by
  induction h with
  | nil => exact rfl
  | keep a _ ih => exact ih.cons a
  | @replace n xs ys a b _ ih => exact ⟨b :: xs, .replace [] xs a b, ih.cons b⟩
  | @insert n xs ys b _ ih => exact ⟨b :: xs, .insert [] xs b, ih.cons b⟩
  | @delete n xs ys a _ ih => exact ⟨xs, .delete [] xs a, ih⟩

/-- A first edit that leaves `b` in front, by what the second alignment does to `b`. -/
theorem Alignment.trans_cons {xs' : List α} {b : α} {c : ℕ}
    (hkeep : ∀ {k zs}, Alignment k xs zs → Alignment (k + c) xs' (b :: zs))
    (hreplace : ∀ {k zs} d, Alignment k xs zs → Alignment (k + 1) xs' (d :: zs))
    (hdelete : ∀ {k zs}, Alignment k xs zs → ∃ j ≤ k + 1, Alignment j xs' zs)
    (ih : ∀ {n zs}, Alignment n ys zs → ∃ k ≤ m + n, Alignment k xs zs) (h' : Alignment n (b :: ys) zs) :
    ∃ k ≤ m + c + n, Alignment k xs' zs := by
  generalize hys : b :: ys = ws at h'
  induction h' with
  | nil => cases hys
  | keep b' h' _ =>
    cases hys
    obtain ⟨k, hk, hall⟩ := ih h'
    exact ⟨k + c, by omega, hkeep hall⟩
  | replace b' d h' _ =>
    cases hys
    obtain ⟨k, hk, hall⟩ := ih h'
    exact ⟨k + 1, by omega, hreplace d hall⟩
  | insert d h' ih' =>
    obtain ⟨k, hk, hall⟩ := ih' hys
    exact ⟨k + 1, by omega, .insert d hall⟩
  | delete b' h' _ =>
    cases hys
    obtain ⟨k, hk, hall⟩ := ih h'
    obtain ⟨j, hj, hall'⟩ := hdelete hall
    exact ⟨j, by omega, hall'⟩

/-- **TWO ALIGNMENTS IN A ROW** come down to one, with no more edits. -/
theorem Alignment.trans (h : Alignment m xs ys) (h' : Alignment n ys zs) :
    ∃ k ≤ m + n, Alignment k xs zs := by
  induction h generalizing n zs with
  | nil => exact ⟨n, by omega, h'⟩
  | keep a h ih =>
    exact trans_cons (c := 0) (.keep a) (.replace a) (fun hall => ⟨_, le_refl _, .delete a hall⟩) ih h'
  | replace a b h ih =>
    exact trans_cons (.replace a b) (.replace a) (fun hall => ⟨_, le_refl _, .delete a hall⟩) ih h'
  | insert b h ih =>
    exact trans_cons (.insert b) .insert (fun hall => ⟨_, Nat.le_succ _, hall⟩) ih h'
  | delete a h ih =>
    obtain ⟨k, hk, hall⟩ := ih h'
    exact ⟨k + 1, by omega, .delete a hall⟩

theorem SingleEdit.alignment (h : SingleEdit xs ys) : Alignment 1 xs ys := by
  have hfront : ∀ front : List α, ∀ {us vs : List α}, Alignment 1 us vs → Alignment 1 (front ++ us) (front ++ vs) := by
    intro front us vs huv
    induction front with
    | nil => exact huv
    | cons c front ih => exact .keep c ih
  cases h with
  | insert front back a => exact hfront front (.insert a (.refl back))
  | delete front back a => exact hfront front (.delete a (.refl back))
  | replace front back a b => exact hfront front (.replace a b (.refl back))

/-- **EDITS IN ANY ORDER** come down to an alignment. -/
theorem Edits.alignment (h : Edits n xs ys) : ∃ k ≤ n, Alignment k xs ys := by
  induction n generalizing xs with
  | zero =>
    have heq : xs = ys := h
    rw [heq]
    exact ⟨0, le_refl 0, .refl ys⟩
  | succ n ih =>
    obtain ⟨zs, hone, hrest⟩ := h
    obtain ⟨k, hk, hall⟩ := ih hrest
    obtain ⟨j, hj, hboth⟩ := hone.alignment.trans hall
    exact ⟨j, by omega, hboth⟩

/-- **A COMMON HEAD MAY BE KEPT**: what any other alignment does to it takes as many
    edits, or more. -/
theorem Alignment.of_cons_cons (h : Alignment n (a :: xs) (a :: ys)) : ∃ k ≤ n, Alignment k xs ys := by
  cases h with
  | keep _ h => exact ⟨n, le_refl n, h⟩
  | @replace n _ _ _ _ h => exact ⟨n, Nat.le_succ n, h⟩
  | @insert n _ _ _ h =>
    obtain ⟨k, hk, hall⟩ := (Alignment.insert a (.refl xs)).trans h
    exact ⟨k, by omega, hall⟩
  | @delete n _ _ _ h =>
    obtain ⟨k, hk, hall⟩ := h.trans (Alignment.delete a (.refl ys))
    exact ⟨k, by omega, hall⟩

/-- From and to the empty list every element counts. -/
theorem Alignment.length_le (h : Alignment n xs ys) : ys.length ≤ xs.length + n := by
  induction h with
  | nil => exact Nat.le_refl 0
  | keep a _ ih =>
    simp only [List.length_cons]
    omega
  | replace a b _ ih =>
    simp only [List.length_cons]
    omega
  | insert b _ ih =>
    simp only [List.length_cons]
    omega
  | delete a _ ih =>
    simp only [List.length_cons]
    omega

theorem Alignment.nil_left (ys : List α) : Alignment ys.length [] ys := by
  induction ys with
  | nil => exact .nil
  | cons b ys ih => exact .insert b ih

/-! ## §3. The distance. -/

variable [DecidableEq α]

/-- The recursion that keeps common heads. -/
def greedyDistance : List α → List α → ℕ
  | [], ys => ys.length
  | a :: xs, [] => (a :: xs).length
  | a :: xs, b :: ys =>
    if a = b then greedyDistance xs ys
    else min (min (greedyDistance xs ys) (greedyDistance (a :: xs) ys)) (greedyDistance xs (b :: ys)) + 1
termination_by xs ys => xs.length + ys.length
decreasing_by all_goals simp only [List.length_cons]; omega

/-- There is an alignment with so many edits. -/
theorem alignment_greedyDistance (xs ys : List α) : Alignment (greedyDistance xs ys) xs ys := by
  induction xs, ys using greedyDistance.induct with
  | case1 ys =>
    rw [greedyDistance]
    exact .nil_left ys
  | case2 a xs =>
    rw [greedyDistance]
    exact (Alignment.nil_left (a :: xs)).symm
  | case3 xs b ys ih =>
    rw [greedyDistance, if_pos rfl]
    exact .keep b ih
  | case4 a xs b ys hne ih₁ ih₂ ih₃ =>
    rw [greedyDistance, if_neg hne]
    rcases min_choice (min (greedyDistance xs ys) (greedyDistance (a :: xs) ys)) (greedyDistance xs (b :: ys))
      with h | h
    · rw [h]
      rcases min_choice (greedyDistance xs ys) (greedyDistance (a :: xs) ys) with h' | h'
      · rw [h']
        exact .replace a b ih₁
      · rw [h']
        exact .insert b ih₂
    · rw [h]
      exact .delete a ih₃

/-- No alignment has fewer. -/
theorem greedyDistance_le_of_alignment (xs ys : List α) :
    ∀ {n}, Alignment n xs ys → greedyDistance xs ys ≤ n := by
  induction xs, ys using greedyDistance.induct with
  | case1 ys =>
    intro n h
    have hlen := h.length_le
    rw [greedyDistance]
    simpa using hlen
  | case2 a xs =>
    intro n h
    have hlen := h.symm.length_le
    rw [greedyDistance]
    simpa using hlen
  | case3 xs b ys ih =>
    intro n h
    obtain ⟨k, hk, hrest⟩ := h.of_cons_cons
    rw [greedyDistance, if_pos rfl]
    exact le_trans (ih hrest) hk
  | case4 a xs b ys hne ih₁ ih₂ ih₃ =>
    intro n h
    rw [greedyDistance, if_neg hne]
    cases h with
    | keep _ _ => exact absurd rfl hne
    | replace _ _ h =>
      have hle := ih₁ h
      omega
    | insert _ h =>
      have hle := ih₂ h
      omega
    | delete _ h =>
      have hle := ih₃ h
      omega

/-- **THE LEAST NUMBER OF EDITS.** -/
theorem greedyDistance_isLeast (xs ys : List α) : IsLeast {n | Edits n xs ys} (greedyDistance xs ys) := by
  constructor
  · exact (alignment_greedyDistance xs ys).edits
  · intro n h
    obtain ⟨k, hk, hall⟩ := Edits.alignment h
    exact le_trans (greedyDistance_le_of_alignment xs ys hall) hk

/-- It is a distance, and how large it can get. -/
theorem greedyDistance_comm (xs ys : List α) : greedyDistance xs ys = greedyDistance ys xs :=
  le_antisymm (greedyDistance_le_of_alignment xs ys (alignment_greedyDistance ys xs).symm)
    (greedyDistance_le_of_alignment ys xs (alignment_greedyDistance xs ys).symm)

theorem greedyDistance_eq_zero_iff : greedyDistance xs ys = 0 ↔ xs = ys := by
  constructor
  · intro h
    have hall := alignment_greedyDistance xs ys
    rw [h] at hall
    exact hall.eq_of_zero
  · intro h
    rw [h]
    exact Nat.le_zero.mp (greedyDistance_le_of_alignment ys ys (.refl ys))

theorem greedyDistance_triangle (xs ys zs : List α) :
    greedyDistance xs zs ≤ greedyDistance xs ys + greedyDistance ys zs := by
  obtain ⟨k, hk, hall⟩ := (alignment_greedyDistance xs ys).trans (alignment_greedyDistance ys zs)
  exact le_trans (greedyDistance_le_of_alignment xs zs hall) hk

/-- It is at most the greater length. -/
theorem greedyDistance_le (xs ys : List α) : greedyDistance xs ys ≤ max xs.length ys.length := by
  induction xs, ys using greedyDistance.induct with
  | case1 ys =>
    rw [greedyDistance]
    exact le_max_right _ _
  | case2 a xs =>
    rw [greedyDistance]
    exact le_max_left _ _
  | case3 xs b ys ih =>
    rw [greedyDistance, if_pos rfl]
    simp only [List.length_cons]
    omega
  | case4 a xs b ys hne ih₁ _ _ =>
    rw [greedyDistance, if_neg hne]
    simp only [List.length_cons]
    omega

end KalavaPir.Framework
