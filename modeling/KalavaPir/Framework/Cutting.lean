/-
  KalavaPir.Framework.Cutting — a text cut at a separator.

  The cuts are made from left to right: after the first occurrence of the
  separator the rest of the text is cut in the same way.
-/
import KalavaPir.Framework.Occurrences

namespace KalavaPir.Framework

open List

variable {α : Type} [DecidableEq α]

/-- What stands between the separators. -/
def pieces (sep src : List α) : List (List α) :=
  if sep ≠ [] ∧ sep <+: src then [] :: pieces sep (src.drop sep.length)
  else
    match src with
    | [] => [[]]
    | c :: cs => (pieces sep cs).modifyHead (c :: ·)
termination_by src.length
decreasing_by
  · obtain ⟨hne, hprefix⟩ : sep ≠ [] ∧ sep <+: src := by assumption
    have hpos := length_pos_of_ne_nil hne
    have hle := hprefix.length_le
    rw [length_drop]
    omega
  · simp

variable {sep : List α}

/-! ## §1. The first cut. -/

variable {src : List α}

theorem pieces_found (hne : sep ≠ []) (h : sep <+: src) :
    pieces sep src = [] :: pieces sep (src.drop sep.length) := by
  rw [pieces.eq_def, if_pos ⟨hne, h⟩]

theorem pieces_missed {c : α} {cs : List α} (h : ¬ sep <+: c :: cs) :
    pieces sep (c :: cs) = (pieces sep cs).modifyHead (c :: ·) := by
  rw [pieces, if_neg fun hhere => h hhere.2]

theorem pieces_nil (hne : sep ≠ []) : pieces sep [] = [[]] := by
  rw [pieces, if_neg fun hhere => hne (prefix_nil.mp hhere.2)]

theorem exists_pieces (hne : sep ≠ []) (src : List α) : ∃ x xs, pieces sep src = x :: xs ∧ x <+: src := by
  induction src using pieces.induct sep with
  | case1 src h ih => exact ⟨[], _, pieces_found hne h.2, nil_prefix⟩
  | case2 h => exact ⟨[], [], pieces_nil hne, nil_prefix⟩
  | case3 c cs h ih =>
    obtain ⟨x, xs, hpieces, hbegins⟩ := ih
    refine ⟨c :: x, xs, ?_, (prefix_cons_inj c).mpr hbegins⟩
    rw [pieces_missed fun hhere => h ⟨hne, hhere⟩, hpieces]
    rfl

/-- **Up to the first separator.** -/
theorem pieces_first (hne : sep ≠ []) (p : ℕ) : ∀ {src : List α}, FirstAt sep src p →
    pieces sep src = src.take p :: pieces sep (src.drop (p + sep.length)) := by
  induction p with
  | zero =>
    intro src h
    have hhere : sep <+: src := h.occurs
    rw [pieces_found hne hhere, Nat.zero_add]
    rfl
  | succ p ih =>
    intro src h
    cases src with
    | nil => exact absurd (prefix_nil.mp h.occurs) hne
    | cons c cs =>
      have htail : FirstAt sep cs p :=
        ⟨h.occurs, fun q hq => h.first (q + 1) (Nat.succ_lt_succ hq)⟩
      rw [pieces_missed (h.first 0 (Nat.succ_pos p)), ih htail, Nat.add_right_comm]
      rfl

/-- **Without a separator** the text is one piece. -/
theorem pieces_none (hne : sep ≠ []) (h : ∀ q, ¬ sep <+: src.drop q) :
    pieces sep src = [src] := by
  induction src with
  | nil => exact pieces_nil hne
  | cons c cs ih =>
    rw [pieces_missed (h 0), ih fun q => h (q + 1)]
    rfl

/-! ## §2. Behind the pieces so far. -/

section Progress

variable {src : List α} {ps : List (List α)} {i p : ℕ}

/-- **One more piece**, where the text has been cut up to `i`. -/
theorem pieces_next (hne : sep ≠ []) (h : pieces sep src = ps ++ pieces sep (src.drop i))
    (hfirst : FirstAt sep (src.drop i) p) : pieces sep src
      = (ps ++ [(src.drop i).take p]) ++ pieces sep (src.drop (i + p + sep.length)) := by
  rw [h, pieces_first hne p hfirst, drop_drop, ← Nat.add_assoc, append_assoc]
  rfl

/-- Cutting goes on behind the pieces so far. -/
theorem pieces_last (hne : sep ≠ []) (h : pieces sep src = ps ++ pieces sep (src.drop i))
    (hnone : ∀ q, ¬ sep <+: (src.drop i).drop q) : pieces sep src = ps ++ [src.drop i] := by
  rw [h, pieces_none hne hnone]

theorem length_lt_pieces (hne : sep ≠ []) (h : pieces sep src = ps ++ pieces sep (src.drop i)) :
    ps.length < (pieces sep src).length := by
  obtain ⟨x, xs, hpieces, -⟩ := exists_pieces hne (src.drop i)
  rw [h, hpieces, length_append, length_cons]
  omega

end Progress

/-! ## §3. All of them. -/

/-- **THE PIECES JOINED** are the text. -/
theorem intercalate_pieces (hne : sep ≠ []) (src : List α) : sep.intercalate (pieces sep src) = src := by
  induction src using pieces.induct sep with
  | case1 src h ih =>
    obtain ⟨x, xs, hpieces, -⟩ := exists_pieces hne (src.drop sep.length)
    rw [pieces_found hne h.2]
    rw [hpieces] at ih ⊢
    rw [intercalate_cons_cons, ih, nil_append]
    exact prefix_iff_eq_append.mp h.2
  | case2 h =>
    rw [pieces_nil hne]
    exact intercalate_singleton
  | case3 c cs h ih =>
    obtain ⟨x, xs, hpieces, -⟩ := exists_pieces hne cs
    rw [pieces_missed fun hhere => h ⟨hne, hhere⟩]
    rw [hpieces] at ih ⊢
    show sep.intercalate ((c :: x) :: xs) = c :: cs
    cases xs with
    | nil =>
      rw [intercalate_singleton] at ih ⊢
      rw [ih]
    | cons y ys =>
      rw [← ih]
      rfl

/-- **NO PIECE CONTAINS THE SEPARATOR.** -/
theorem not_infix_of_mem_pieces (hne : sep ≠ []) (src : List α) : ∀ x ∈ pieces sep src, ¬ sep <:+: x := by
  have hnil : ¬ sep <:+: ([] : List α) := fun h => hne (infix_nil.mp h)
  induction src using pieces.induct sep with
  | case1 src h ih =>
    rw [pieces_found hne h.2]
    intro x hx
    rcases mem_cons.mp hx with rfl | hx
    · exact hnil
    · exact ih x hx
  | case2 h =>
    rw [pieces_nil hne]
    intro x hx
    rw [mem_singleton.mp hx]
    exact hnil
  | case3 c cs h ih =>
    obtain ⟨y, ys, hpieces, hbegins⟩ := exists_pieces hne cs
    have hnot : ¬ sep <+: c :: cs := fun hhere => h ⟨hne, hhere⟩
    rw [pieces_missed hnot]
    rw [hpieces] at ih ⊢
    intro x hx
    rcases mem_cons.mp hx with rfl | hx
    · -- it would begin the text, or stand in the first piece of the rest
      intro hinfix
      rcases infix_cons_iff.mp hinfix with hstart | hinfix
      · exact hnot (hstart.trans ((prefix_cons_inj c).mpr hbegins))
      · exact ih y mem_cons_self hinfix
    · exact ih x (mem_cons_of_mem y hx)

theorem pieces_replicate (c : α) (n : ℕ) : pieces [c] (List.replicate n c) = List.replicate (n + 1) [] := by
  have hne : [c] ≠ [] := cons_ne_nil c []
  induction n with
  | zero => exact pieces_nil hne
  | succ n ih =>
    have hhere : [c] <+: List.replicate (n + 1) c := ⟨List.replicate n c, rfl⟩
    rw [pieces_found hne hhere]
    show [] :: pieces [c] (List.replicate n c) = _
    rw [ih]
    rfl

end KalavaPir.Framework
