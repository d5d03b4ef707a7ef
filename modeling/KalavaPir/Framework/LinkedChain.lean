/-
  KalavaPir.Framework.LinkedChain — chains of cells linked by pointers.

  A memory gives each address the pointer stored in its cell; a chain is the
  list of addresses that following the pointers visits, up to NULL (`none`).
  Nothing here knows what else a cell holds.
-/
import Mathlib.Data.List.Nodup

namespace KalavaPir.Framework

open List

variable {A : Type}

/-! ## §1. Chains. -/

/-- The pointer `h` leads along the cells of `l` to NULL. -/
def Linked (next : A → Option A) : Option A → List A → Prop
  | h, [] => h = none
  | h, p :: l => h = some p ∧ Linked next (next p) l

/-- The addresses visited from a pointer, as far as the fuel goes. -/
def collect (next : A → Option A) : ℕ → Option A → List A
  | 0, _ => []
  | _ + 1, none => []
  | fuel + 1, some p => p :: collect next fuel (next p)

variable {next next' : A → Option A} {l l₁ l₂ : List A} {h : Option A} {p : A}

theorem Linked.collect_eq (hl : Linked next h l) {fuel : ℕ} (hfuel : l.length ≤ fuel) :
    collect next fuel h = l := by
  induction l generalizing h fuel with
  | nil =>
    have hnone : h = none := hl
    rw [hnone]
    cases fuel <;> rfl
  | cons p l ih =>
    obtain ⟨hp, hrest⟩ := hl
    cases fuel with
    | zero => exact absurd hfuel (by simp)
    | succ fuel =>
      rw [hp, collect, ih hrest (by simpa using hfuel)]

/-- **Other cells do not matter.** -/
theorem Linked.congr (hl : Linked next h l) (hsame : ∀ p ∈ l, next' p = next p) : Linked next' h l := by
  induction l generalizing h with
  | nil => exact hl
  | cons p l ih =>
    obtain ⟨hp, hrest⟩ := hl
    refine ⟨hp, ?_⟩
    rw [hsame p mem_cons_self]
    exact ih hrest (fun q hq => hsame q (mem_cons_of_mem p hq))

theorem forall₂_linked_congr {heads : List (Option A)} {rows : List (List A)}
    (hrows : List.Forall₂ (Linked next) heads rows) (hsame : ∀ p ∈ rows.flatten, next' p = next p) :
    List.Forall₂ (Linked next') heads rows := by
  induction hrows with
  | nil => exact .nil
  | cons hl _ ih =>
    exact .cons (hl.congr fun p hp => hsame p (mem_append_left _ hp))
      (ih fun p hp => hsame p (mem_append_right _ hp))

theorem Linked.suffix (hl : Linked next h (l₁ ++ p :: l₂)) : Linked next (next p) l₂ := by
  induction l₁ generalizing h with
  | nil => exact hl.2
  | cons q l₁ ih => exact ih hl.2

theorem Linked.unique {l' : List A} (hl : Linked next h l) (hl' : Linked next h l') : l = l' := by
  rw [← hl.collect_eq (Nat.le_max_left l.length l'.length),
    hl'.collect_eq (Nat.le_max_right l.length l'.length)]

/-- **One pointer redirected, another rest.** -/
theorem Linked.splice {l₂' : List A} (hl : Linked next h (l₁ ++ p :: l₂))
    (hsame : ∀ q ∈ l₁, next' q = next q) (hrest : Linked next' (next' p) l₂') :
    Linked next' h (l₁ ++ p :: l₂') := by
  induction l₁ generalizing h with
  | nil => exact ⟨hl.1, hrest⟩
  | cons q l₁ ih =>
    refine ⟨hl.1, ?_⟩
    rw [hsame q mem_cons_self]
    exact ih hl.2 fun x hx => hsame x (mem_cons_of_mem q hx)

/-- **One pointer redirected, one cell out.** -/
theorem Linked.unlink [DecidableEq A] {q : A} (hl : Linked next h (l₁ ++ q :: p :: l₂))
    (hnodup : (l₁ ++ q :: p :: l₂).Nodup) : Linked (Function.update next q (next p)) h (l₁ ++ q :: l₂) := by
  have hout : ∀ x ∈ l₁ ++ p :: l₂, x ≠ q := by
    intro x hx heq
    rw [heq] at hx
    have hq := (nodup_middle.mp hnodup)
    exact (nodup_cons.mp hq).1 hx
  have hpost : Linked next (next p) l₂ := hl.suffix.2
  -- the cells before `q` are followed as before
  refine hl.splice (fun x hx => Function.update_of_ne (hout x (mem_append_left _ hx)) _ _) ?_
  rw [Function.update_self]
  refine hpost.congr ?_
  intro x hx
  exact Function.update_of_ne
    (hout x (mem_append_right l₁ (mem_cons_of_mem p hx))) _ _

/-! ## §2. Walking a chain. -/

/-- `while(p) { if(test(p)) ..; q=p; p=next(p); }`: the last `q` and the cell
    where the test succeeded, or NULL; `none` when the fuel runs out. -/
def walk (next : A → Option A) (test : A → Bool) :
    ℕ → Option A → Option A → Option (Option A × Option A)
  | 0, _, _ => none
  | _ + 1, q, none => some (q, none)
  | fuel + 1, q, some p =>
    if test p then some (q, some p) else walk next test fuel (some p) (next p)

/-- The same on the list of the cells. -/
def seek (test : A → Bool) (q : Option A) : List A → Option A × Option A
  | [] => (q, none)
  | p :: l => if test p then (q, some p) else seek test (some p) l

/-- **A walk ends.** -/
theorem Linked.walk (hl : Linked next h l) (test : A → Bool) {fuel : ℕ} (hfuel : l.length < fuel)
    (q : Option A) : Framework.walk next test fuel q h = some (seek test q l) := by
  induction l generalizing h fuel q with
  | nil =>
    have hnone : h = none := hl
    cases fuel with
    | zero => exact absurd hfuel (by simp)
    | succ fuel =>
      rw [hnone]
      rfl
  | cons p l ih =>
    obtain ⟨hp, hrest⟩ := hl
    cases fuel with
    | zero => exact absurd hfuel (by simp)
    | succ fuel =>
      rw [hp]
      unfold Framework.walk seek
      split_ifs
      · rfl
      · exact ih hrest (by simpa using hfuel) (some p)

theorem seek_snd (test : A → Bool) (l : List A) (q : Option A) : (seek test q l).2 = l.find? test := by
  induction l generalizing q with
  | nil => rfl
  | cons x l ih =>
    unfold seek
    cases hx : test x with
    | true =>
      rw [if_pos rfl, find?_cons_of_pos hx]
    | false =>
      rw [if_neg Bool.false_ne_true, find?_cons_of_neg (by rw [hx]; exact Bool.false_ne_true)]
      exact ih (some x)

/-- Where the test succeeded, and the cell before it. -/
theorem seek_eq_some {test : A → Bool} {q q' : Option A} (h : seek test q l = (q', some p)) :
    ∃ l₁ l₂, l = l₁ ++ p :: l₂ ∧ (∀ x ∈ l₁, test x = false) ∧ test p = true ∧
      ((l₁ = [] ∧ q' = q) ∨ ∃ l₀ x, l₁ = l₀ ++ [x] ∧ q' = some x) := by
  induction l generalizing q with
  | nil => exact absurd h (by simp [seek])
  | cons x l ih =>
    unfold seek at h
    cases hx : test x with
    | true =>
      rw [hx, if_pos rfl] at h
      cases h
      exact ⟨[], l, rfl, fun y hy => absurd hy not_mem_nil, hx, Or.inl ⟨rfl, rfl⟩⟩
    | false =>
      rw [hx, if_neg Bool.false_ne_true] at h
      obtain ⟨l₁, l₂, rfl, hbefore, hp, hlast⟩ := ih h
      refine ⟨x :: l₁, l₂, rfl, forall_mem_cons.mpr ⟨hx, hbefore⟩, hp, Or.inr ?_⟩
      obtain ⟨rfl, rfl⟩ | ⟨l₀, y, rfl, rfl⟩ := hlast
      · exact ⟨[], x, rfl, rfl⟩
      · exact ⟨x :: l₀, y, rfl, rfl⟩

end KalavaPir.Framework
