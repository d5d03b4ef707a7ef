/-
  KalavaPir.Framework.Enclosing — what stands between an opening and a closing
  delimiter.

  In a text the first opening delimiter is looked for, and behind it the first
  closing one; behind that the rest of the text is read in the same way.
-/
import KalavaPir.Framework.Occurrences

namespace KalavaPir.Framework

open List

variable {α : Type} {s₁ s₂ src x : List α} {ps qs : List (List α)} {p q d : ℕ}

theorem FirstAt.unique (h : FirstAt x src p) (h' : FirstAt x src q) : p = q := by
  rcases Nat.lt_trichotomy p q with hlt | heq | hgt
  · exact absurd h.occurs (h'.first p hlt)
  · exact heq
  · exact absurd h'.occurs (h.first q hgt)

theorem FirstAt.drop (h : FirstAt x src q) (hle : p ≤ q) : FirstAt x (src.drop p) (q - p) := by
  constructor
  · rw [drop_drop, Nat.add_sub_cancel' hle]
    exact h.occurs
  · intro r hr
    rw [drop_drop]
    exact h.first (p + r) (by omega)

/-- **THE PIECES** between the delimiters `s₁` and `s₂` of a text. -/
inductive Enclosed (s₁ s₂ : List α) : List α → List (List α) → Prop
  | no_open {src : List α} (h : ∀ q, ¬ s₁ <+: src.drop q) : Enclosed s₁ s₂ src []
  | no_close {src : List α} {p : ℕ} (hopen : FirstAt s₁ src p)
      (h : ∀ q, ¬ s₂ <+: (src.drop (p + s₁.length)).drop q) : Enclosed s₁ s₂ src []
  | piece {src : List α} {p d : ℕ} {ps : List (List α)} (hopen : FirstAt s₁ src p)
      (hclose : FirstAt s₂ (src.drop (p + s₁.length)) d)
      (hrest : Enclosed s₁ s₂ (src.drop (p + s₁.length + d + s₂.length)) ps) :
      Enclosed s₁ s₂ src ((src.drop (p + s₁.length)).take d :: ps)

/-- **No closing delimiter comes before the end of an opening one**: from the same
    place on the first `s₂` comes no earlier than behind the first `s₁`, there and
    behind every `s₂` so found, as long as both are found. -/
inductive InOrder (s₁ s₂ : List α) : List α → Prop
  | no_open {src : List α} (h : ∀ q, ¬ s₁ <+: src.drop q) : InOrder s₁ s₂ src
  | no_close {src : List α} (h : ∀ q, ¬ s₂ <+: src.drop q) : InOrder s₁ s₂ src
  | next {src : List α} {p q : ℕ} (hopen : FirstAt s₁ src p) (hclose : FirstAt s₂ src q)
      (hle : p + s₁.length ≤ q) (hrest : InOrder s₁ s₂ (src.drop (q + s₂.length))) : InOrder s₁ s₂ src

/-! ## §1. The pieces. -/

/-- **ONE PIECE**, and those of the rest. -/
theorem enclosed_cons_iff (hopen : FirstAt s₁ src p) (hclose : FirstAt s₂ (src.drop (p + s₁.length)) d) :
    Enclosed s₁ s₂ src (x :: ps) ↔
      x = (src.drop (p + s₁.length)).take d ∧ Enclosed s₁ s₂ (src.drop (p + s₁.length + d + s₂.length)) ps := by
  constructor
  · intro h
    cases h with
    | piece hopen' hclose' hrest =>
      have hp := hopen'.unique hopen
      rw [hp] at hclose' hrest ⊢
      have hd := hclose'.unique hclose
      rw [hd] at hrest ⊢
      exact ⟨rfl, hrest⟩
  · rintro ⟨rfl, hrest⟩
    exact .piece hopen hclose hrest

/-- **NO PIECE CONTAINS** the closing delimiter. -/
theorem Enclosed.not_infix (hne : s₂ ≠ []) (h : Enclosed s₁ s₂ src ps) : ∀ x ∈ ps, ¬ s₂ <:+: x := by
  induction h with
  | no_open _ | no_close _ _ => exact fun x hx => absurd hx not_mem_nil
  | @piece src p d ps hopen hclose hrest ih =>
    intro x hx
    rcases mem_cons.mp hx with rfl | hx
    · rintro ⟨front, back, heq⟩
      -- it would begin before the place at which it comes first
      have hlen : front.length + s₂.length ≤ d := by
        have hlength := congrArg List.length heq
        rw [length_append, length_append, length_take] at hlength
        omega
      have hpos := length_pos_of_ne_nil hne
      refine hclose.first front.length (by omega) ?_
      have hpre : s₂ <+: ((src.drop (p + s₁.length)).take d).drop front.length := by
        rw [← heq, append_assoc, drop_left]
        exact prefix_append s₂ back
      rw [drop_take] at hpre
      exact hpre.trans (List.take_prefix _ _)
    · exact ih x hx

/-! ## §2. Both delimiters from one place. -/

/-- When both delimiters may be looked for from the same place. -/
theorem InOrder.next_iff (hopen : FirstAt s₁ src p) (hclose : FirstAt s₂ src q) (hle : p + s₁.length ≤ q) :
    InOrder s₁ s₂ src ↔ InOrder s₁ s₂ (src.drop (q + s₂.length)) := by
  constructor
  · intro h
    cases h with
    | no_open hno => exact absurd hopen.occurs (hno _)
    | no_close hno => exact absurd hclose.occurs (hno _)
    | next _ hclose' _ hrest =>
      rw [hclose'.unique hclose] at hrest
      exact hrest
  · exact .next hopen hclose hle

theorem not_inOrder (hopen : FirstAt s₁ src p) (hclose : FirstAt s₂ src q) (hlt : q < p + s₁.length) :
    ¬ InOrder s₁ s₂ src := by
  intro h
  cases h with
  | no_open hno => exact hno _ hopen.occurs
  | no_close hno => exact hno _ hclose.occurs
  | next hopen' hclose' hle _ =>
    have hp := hopen'.unique hopen
    have hq := hclose'.unique hclose
    omega

/-- All of the rest is no piece. -/
theorem not_enclosed_rest (hne : s₂ ≠ []) (hopen : FirstAt s₁ src p) :
    ¬ Enclosed s₁ s₂ src (src.drop (p + s₁.length) :: ps) := by
  intro h
  generalize hx : src.drop (p + s₁.length) = x at h
  cases h with
  | @piece _ p' d _ hopen' hclose _ =>
    have hp := hopen'.unique hopen
    rw [hp] at hx hclose
    have hfit := length_of_prefix_drop hclose.occurs
    have hlength := congrArg List.length hx
    rw [length_take] at hlength
    have hpos := length_pos_of_ne_nil hne
    omega

end KalavaPir.Framework
