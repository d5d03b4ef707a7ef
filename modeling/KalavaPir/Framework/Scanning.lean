/-
  KalavaPir.Framework.Scanning — pointers that move forward over a buffer.

  A cursor is a place in a buffer: how much is in front of it, and what stands from
  it to the end of the buffer.  To look behind the end fails (`none`).  What has not
  failed on a buffer has not looked behind its end, and gives the same on every
  buffer that goes on from there.
-/
import KalavaPir.Framework.Loop
import Mathlib.Data.List.TakeWhile

namespace KalavaPir.Framework

open List

/-! ## §1. Cursors. -/

/-- A place in a text, and what stands behind it. -/
structure Cursor (α : Type) where
  pos : ℕ
  rest : List α

namespace Cursor

variable {α : Type}

/-- The place `n` characters on. -/
def advance (t : Cursor α) (n : ℕ) : Cursor α := ⟨t.pos + n, t.rest.drop n⟩

/-- The same place in a longer buffer. -/
def extend (t : Cursor α) (tail : List α) : Cursor α := ⟨t.pos, t.rest ++ tail⟩

/-- Where the buffer ends. -/
def stop (t : Cursor α) : ℕ := t.pos + t.rest.length

/-- `while(p(*ptr)) ptr++;` -/
def scanFrom (p : α → Bool) (pos : ℕ) : List α → Option (Cursor α)
  | [] => none
  | c :: cs => if p c then scanFrom p (pos + 1) cs else some ⟨pos, c :: cs⟩

/-- The first place where `p` fails. -/
def scanWhile (t : Cursor α) (p : α → Bool) : Option (Cursor α) := scanFrom p t.pos t.rest

variable {t t' : Cursor α} {p : α → Bool}

theorem stop_advance {n : ℕ} (h : n ≤ t.rest.length) : (t.advance n).stop = t.stop := by
  show t.pos + n + (t.rest.drop n).length = t.pos + t.rest.length
  rw [length_drop]
  omega

theorem advance_extend {n : ℕ} (h : n ≤ t.rest.length) (tail : List α) :
    (t.extend tail).advance n = (t.advance n).extend tail := by
  unfold extend advance
  rw [drop_append_of_le_length h]

/-- What a scan has found: what it has skipped, and where it has stopped. -/
theorem scanFrom_some {l : List α} : ∀ {pos : ℕ} {t : Cursor α},
    scanFrom p pos l = some t → ∃ skipped c cs, l = skipped ++ c :: cs ∧ (∀ d ∈ skipped, p d = true)
      ∧ p c = false ∧ t = ⟨pos + skipped.length, c :: cs⟩ := by
  induction l with
  | nil => intro pos t h; cases h
  | cons d l ih =>
    intro pos t h
    rw [scanFrom] at h
    cases hd : p d with
    | true =>
      rw [hd, if_pos rfl] at h
      obtain ⟨skipped, c, cs, rfl, hall, hc, rfl⟩ := ih h
      refine ⟨d :: skipped, c, cs, rfl, ?_, hc, ?_⟩
      · intro e he
        rcases mem_cons.mp he with rfl | he
        · exact hd
        · exact hall e he
      · rw [length_cons]
        congr 1
        omega
    | false =>
      rw [hd, if_neg Bool.false_ne_true] at h
      cases h
      exact ⟨[], d, l, rfl, nofun, hd, rfl⟩

/-- The end is reached iff no token stops it. -/
theorem scanFrom_none_iff {l : List α} : ∀ {pos : ℕ}, scanFrom p pos l = none ↔ ∀ c ∈ l, p c = true := by
  induction l with
  | nil => intro pos; exact iff_of_true rfl nofun
  | cons d l ih =>
    intro pos
    rw [scanFrom, forall_mem_cons]
    cases hd : p d with
    | true => rw [if_pos rfl, ih, and_iff_right rfl]
    | false => simp

theorem rest_of_scanWhile (h : t.scanWhile p = some t') : t'.rest = t.rest.dropWhile p := by
  obtain ⟨skipped, c, cs, hl, hall, hc, rfl⟩ := scanFrom_some h
  rw [hl, dropWhile_append_of_pos hall, dropWhile_cons_of_neg (by simp [hc])]

theorem dropWhile_of_scanWhile_none (h : t.scanWhile p = none) : t.rest.dropWhile p = [] :=
  dropWhile_eq_nil_iff.mpr (scanFrom_none_iff.mp h)

/-- A scan and a comparison on a longer buffer. -/
theorem scanWhile_extend (h : t.scanWhile p = some t') (tail : List α) :
    (t.extend tail).scanWhile p = some (t'.extend tail) := by
  obtain ⟨pos, l⟩ := t
  show scanFrom p pos (l ++ tail) = _
  replace h : scanFrom p pos l = some t' := h
  induction l generalizing pos with
  | nil => cases h
  | cons d l ih =>
    show scanFrom p pos (d :: (l ++ tail)) = _
    rw [scanFrom] at h ⊢
    cases hd : p d with
    | true =>
      rw [hd, if_pos rfl] at h
      rw [if_pos rfl, ih (pos + 1) h]
    | false =>
      rw [hd, if_neg Bool.false_ne_true] at h
      cases h
      rfl

theorem scanWhile_stop (h : t.scanWhile p = some t') : t'.stop = t.stop ∧ t.pos ≤ t'.pos := by
  obtain ⟨skipped, c, cs, hl, -, -, rfl⟩ := scanFrom_some h
  unfold stop
  rw [hl, length_append]
  exact ⟨by show t.pos + skipped.length + (c :: cs).length = _; omega, Nat.le_add_right _ _⟩

end Cursor

/-! ## §2. Comparisons. -/

section Begins

variable {α : Type} [DecidableEq α] (fold : α → α)

/-- Does a text begin with a name, up to `fold`?  The comparison stops at the first
difference. -/
def begins (fold : α → α) : List α → List α → Option Bool
  | [], _ => some true
  | _ :: _, [] => none
  | d :: name, c :: text => if fold c = fold d then begins fold name text else some false

/-- A name is found iff it is a prefix. -/
theorem begins_true_iff (name : List α) : ∀ text : List α,
    begins fold name text = some true ↔ name.map fold <+: text.map fold := by
  induction name with
  | nil => intro text; exact iff_of_true (by cases text <;> rfl) nil_prefix
  | cons d name ih =>
    intro text
    cases text with
    | nil => exact iff_of_false nofun fun h => cons_ne_nil _ _ (prefix_nil.mp h)
    | cons c text =>
      rw [begins, map_cons, map_cons, cons_prefix_cons]
      by_cases h : fold c = fold d
      · rw [if_pos h, ih, and_iff_right h.symm]
      · rw [if_neg h]
        exact iff_of_false nofun fun h' => h h'.1.symm

/-- **A comparison looks behind the end** of a text that the name goes on from. -/
theorem begins_none_iff (name : List α) : ∀ text : List α, begins fold name text = none
    ↔ text.map fold <+: name.map fold ∧ text.length < name.length := by
  induction name with
  | nil =>
    intro text
    exact iff_of_false (by cases text <;> nofun) fun h => Nat.not_lt_zero _ h.2
  | cons d name ih =>
    intro text
    cases text with
    | nil => exact iff_of_true rfl ⟨List.nil_prefix, Nat.succ_pos _⟩
    | cons c text =>
      rw [begins, map_cons, map_cons, cons_prefix_cons, length_cons,
        length_cons, Nat.succ_lt_succ_iff]
      by_cases h : fold c = fold d
      · rw [if_pos h, ih, and_iff_right h]
      · rw [if_neg h]
        exact iff_of_false nofun fun h' => h h'.1.1

variable {name text : List α}

/-- What comes behind does not matter. -/
theorem begins_extend {b : Bool} (h : begins fold name text = some b) (tail : List α) :
    begins fold name (text ++ tail) = some b := by
  induction name generalizing text with
  | nil => cases text <;> cases tail <;> exact h
  | cons d name ih =>
    cases text with
    | nil => cases h
    | cons c text =>
      rw [cons_append, begins]
      rw [begins] at h
      by_cases heq : fold c = fold d
      · rw [if_pos heq] at h ⊢
        exact ih h
      · rw [if_neg heq] at h ⊢
        exact h

theorem length_of_begins (h : begins fold name text = some true) :
    name.length ≤ text.length := by
  have hle := ((begins_true_iff fold name text).mp h).length_le
  rwa [length_map, length_map] at hle

end Begins

/-! ## §3. Loops. -/

section Loops

variable {α σ ρ : Type}

/-- The step of a round on a longer buffer. -/
def LoopStep.extend (tail : List α) :
    LoopStep (σ × Cursor α) ρ → LoopStep (σ × Cursor α) ρ
  | .again s => .again (s.1, s.2.extend tail)
  | .done r => .done r

/-- **A LOOP OVER A BUFFER** that has not looked behind its end gives the same on a
longer one. -/
theorem loop_extend {body : σ × Cursor α → Option (LoopStep (σ × Cursor α) ρ)} {tail : List α}
    (hbody : ∀ s t step, body (s, t) = some step →
      body (s, t.extend tail) = some (step.extend tail)) (fuel : ℕ) :
    ∀ {s : σ} {t : Cursor α} {r : ρ}, loop body fuel (s, t) = some r →
      loop body fuel (s, t.extend tail) = some r := by
  induction fuel with
  | zero => intro s t r h; cases h
  | succ fuel ih =>
    intro s t r h
    cases hround : body (s, t) with
    | none =>
      rw [loop_fails hround] at h
      cases h
    | some step =>
      have hlong := hbody s t step hround
      cases step with
      | again s' =>
        rw [loop_again hround] at h
        rw [loop_again hlong]
        exact ih h
      | done r' =>
        rw [loop_done hround] at h
        rw [loop_done hlong, h]

end Loops

end KalavaPir.Framework
