/-
  KalavaPir.Framework.Ring — circular lists with links in both directions.

  A path leads along one link from a cell through others to a last one, which may
  be the first one again.  A ring is a path from a cell through the others back to
  it, and a path of the other link through them in the other order.
-/
import Mathlib.Logic.Function.Basic
import Mathlib.Data.List.Nodup
import Mathlib.Tactic.Common

namespace KalavaPir.Framework

open List

variable {A : Type}

/-! ## §1. Paths. -/

/-- From `p` along the cells of `l` to `q`. -/
def Path (next : A → Option A) : A → List A → A → Prop
  | p, [], q => next p = some q
  | p, x :: l, q => next p = some x ∧ Path next x l q

/-- The last cell of `p :: l`. -/
def lastOf : A → List A → A
  | p, [] => p
  | _, x :: l => lastOf x l

/-- The first cell of `l`, or `q`. -/
def firstOf : List A → A → A
  | [], q => q
  | x :: _, _ => x

variable {next next' : A → Option A} {p q x : A} {l l₁ l₂ : List A}

theorem lastOf_mem (p : A) (l : List A) : lastOf p l ∈ p :: l := by
  induction l generalizing p with
  | nil => exact mem_cons_self
  | cons x l ih => exact mem_cons_of_mem p (ih x)

theorem firstOf_eq_getD (l : List A) (q : A) : firstOf l q = l.head?.getD q := by
  cases l with
  | nil => rfl
  | cons x l => rfl

theorem lastOf_eq_firstOf_reverse (p : A) (l : List A) : lastOf p l = firstOf l.reverse p := by
  induction l generalizing p with
  | nil => rfl
  | cons x l ih =>
    rw [lastOf, ih, reverse_cons]
    cases l.reverse with
    | nil => rfl
    | cons y l' => rfl

theorem Path.next_eq (h : Path next p l q) : next p = some (firstOf l q) := by
  cases l with
  | nil => exact h
  | cons x l => exact h.1

/-- **Only the cells before the last one matter**, and of the first one only its
    link. -/
theorem Path.congr {p' : A} (h : Path next p l q) (hfirst : next' p' = next p)
    (hsame : ∀ r ∈ l, next' r = next r) : Path next' p' l q := by
  induction l generalizing p p' with
  | nil => exact hfirst.trans h
  | cons x l ih =>
    have hx := hsame x mem_cons_self
    exact ⟨hfirst.trans h.1, ih h.2 hx fun r hr => hsame r (mem_cons_of_mem x hr)⟩

theorem Path.append_iff : Path next p (l₁ ++ x :: l₂) q ↔ Path next p l₁ x ∧ Path next x l₂ q := by
  induction l₁ generalizing p with
  | nil => exact Iff.rfl
  | cons y l₁ ih =>
    rw [cons_append, Path, Path, ih, and_assoc]

/-- **ONE CELL PUT IN** behind the last of `p :: l₁`. -/
theorem Path.insert (h : Path next p (l₁ ++ l₂) q) (hnodup : (p :: (l₁ ++ l₂)).Nodup)
    (hlast : next' (lastOf p l₁) = some x) (hnew : next' x = next (lastOf p l₁))
    (hsame : ∀ r ∈ p :: (l₁ ++ l₂), r ≠ lastOf p l₁ → next' r = next r) : Path next' p (l₁ ++ x :: l₂) q := by
  induction l₁ generalizing p with
  | nil =>
    refine ⟨hlast, h.congr hnew fun r hr => hsame r (mem_cons_of_mem p hr) ?_⟩
    intro heq
    exact (nodup_cons.mp hnodup).1 (heq ▸ hr : lastOf p [] ∈ _)
  | cons y l₁ ih =>
    obtain ⟨hout, hnodup'⟩ := nodup_cons.mp hnodup
    have hp : next' p = next p := by
      refine hsame p mem_cons_self ?_
      intro heq
      have hmem := lastOf_mem y l₁
      rw [heq] at hout
      exact hout (mem_append_left l₂ hmem)
    exact ⟨hp.trans h.1, ih h.2 hnodup' hlast hnew fun r hr => hsame r (mem_cons_of_mem p hr)⟩

/-- **ONE CELL TAKEN OUT**, the link before it led past it. -/
theorem Path.remove (h : Path next p (l₁ ++ x :: l₂) q) (hnodup : (p :: (l₁ ++ x :: l₂)).Nodup)
    (hlast : next' (lastOf p l₁) = next x)
    (hsame : ∀ r ∈ p :: (l₁ ++ l₂), r ≠ lastOf p l₁ → next' r = next r) : Path next' p (l₁ ++ l₂) q := by
  induction l₁ generalizing p with
  | nil =>
    refine h.2.congr hlast fun r hr => hsame r (mem_cons_of_mem p hr) ?_
    intro heq
    have hp := (nodup_cons.mp hnodup).1
    exact hp (mem_cons_of_mem x (heq ▸ hr : lastOf p [] ∈ l₂))
  | cons y l₁ ih =>
    obtain ⟨hout, hnodup'⟩ := nodup_cons.mp hnodup
    have hp : next' p = next p := by
      refine hsame p mem_cons_self ?_
      intro heq
      have hmem := lastOf_mem y l₁
      rw [heq] at hout
      exact hout (mem_append_left (x :: l₂) hmem)
    exact ⟨hp.trans h.1, ih h.2 hnodup' hlast fun r hr => hsame r (mem_cons_of_mem p hr)⟩

/-! ## §2. Rings. -/

/-- Around from `b` through `l`, and the other way around. -/
structure Ring (right left : A → Option A) (b : A) (l : List A) : Prop where
  around : Path right b l b
  back : Path left b l.reverse b
  nodup : (b :: l).Nodup

variable {right left right' left' : A → Option A} {b : A}

theorem Ring.right_eq (h : Ring right left b l) : right b = some (firstOf l b) := h.around.next_eq

theorem Ring.left_eq (h : Ring right left b l) : left b = some (lastOf b l) := by
  rw [lastOf_eq_firstOf_reverse]
  exact h.back.next_eq

theorem nodup_reverse (h : (b :: l).Nodup) : (b :: l.reverse).Nodup := by
  obtain ⟨hout, hnodup⟩ := nodup_cons.mp h
  exact List.nodup_cons.mpr ⟨fun hin => hout (List.mem_reverse.mp hin), List.nodup_reverse.mpr hnodup⟩

theorem Ring.flip (h : Ring right left b l) : Ring left right b l.reverse := by
  refine ⟨h.back, ?_, nodup_reverse h.nodup⟩
  rw [reverse_reverse]
  exact h.around

theorem Ring.neighbours (h : Ring right left b (l₁ ++ x :: l₂)) :
    right x = some (firstOf l₂ b) ∧ left x = some (lastOf b l₁) := by
  have hback := h.back
  rw [reverse_append, reverse_cons, append_assoc, singleton_append] at hback
  refine ⟨(Path.append_iff.mp h.around).2.next_eq, ?_⟩
  rw [(Path.append_iff.mp hback).2.next_eq, lastOf_eq_firstOf_reverse]

/-- **A CELL PUT INTO THE RING** between two neighbours. -/
theorem Ring.insert (h : Ring right left b (l₁ ++ l₂)) (hout : x ∉ b :: (l₁ ++ l₂))
    (hright : right' (lastOf b l₁) = some x) (hright' : right' x = right (lastOf b l₁))
    (hleft : left' (firstOf l₂ b) = some x) (hleft' : left' x = left (firstOf l₂ b))
    (hsame : ∀ r ∈ b :: (l₁ ++ l₂), r ≠ lastOf b l₁ → right' r = right r)
    (hsame' : ∀ r ∈ b :: (l₁ ++ l₂), r ≠ firstOf l₂ b → left' r = left r) :
    Ring right' left' b (l₁ ++ x :: l₂) := by
  have hfirst : lastOf b l₂.reverse = firstOf l₂ b := by
    rw [lastOf_eq_firstOf_reverse, reverse_reverse]
  refine ⟨h.around.insert h.nodup hright hright' hsame, ?_, ?_⟩
  · have hback := h.back
    have hnodup := nodup_reverse h.nodup
    rw [reverse_append] at hback hnodup
    rw [reverse_append, reverse_cons, append_assoc, singleton_append]
    refine hback.insert hnodup (by rw [hfirst, hleft]) (by rw [hfirst, hleft']) fun r hr hne => ?_
    rw [hfirst] at hne
    refine hsame' r ?_ hne
    simpa [or_comm, or_left_comm] using hr
  · rw [mem_cons, not_or] at hout
    obtain ⟨hb, hnodup⟩ := nodup_cons.mp h.nodup
    refine nodup_cons.mpr ⟨?_, nodup_middle.mpr (nodup_cons.mpr ⟨hout.2, hnodup⟩)⟩
    intro hin
    rcases mem_append.mp hin with hin | hin
    · exact hb (mem_append_left l₂ hin)
    · rcases mem_cons.mp hin with heq | hin
      · exact hout.1 heq.symm
      · exact hb (mem_append_right l₁ hin)

/-- **A CELL TAKEN OUT OF THE RING**, its neighbours linked to each other. -/
theorem Ring.remove (h : Ring right left b (l₁ ++ x :: l₂))
    (hright : right' (lastOf b l₁) = right x) (hleft : left' (firstOf l₂ b) = left x)
    (hsame : ∀ r ∈ b :: (l₁ ++ l₂), r ≠ lastOf b l₁ → right' r = right r)
    (hsame' : ∀ r ∈ b :: (l₁ ++ l₂), r ≠ firstOf l₂ b → left' r = left r) :
    Ring right' left' b (l₁ ++ l₂) := by
  have hfirst : lastOf b l₂.reverse = firstOf l₂ b := by
    rw [lastOf_eq_firstOf_reverse, reverse_reverse]
  refine ⟨h.around.remove h.nodup hright hsame, ?_, ?_⟩
  · have hback := h.back
    have hnodup := nodup_reverse h.nodup
    rw [reverse_append, reverse_cons, append_assoc, singleton_append] at hback hnodup
    rw [reverse_append]
    refine hback.remove hnodup (by rw [hfirst, hleft]) fun r hr hne => ?_
    rw [hfirst] at hne
    refine hsame' r ?_ hne
    simpa [or_comm, or_left_comm] using hr
  · obtain ⟨hb, hnodup⟩ := nodup_cons.mp h.nodup
    refine nodup_cons.mpr ⟨fun hin => hb ?_, (nodup_cons.mp (nodup_middle.mp hnodup)).2⟩
    rcases mem_append.mp hin with hin | hin
    · exact mem_append_left _ hin
    · exact mem_append_right l₁ (mem_cons_of_mem x hin)

end KalavaPir.Framework
