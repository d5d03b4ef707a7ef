/-
  KalavaPir.Common.QDenoise — tags and entities taken out of a text, `common/qfunc.h`.

  `src` is what the pointer to the text sees, and `ptr_end` a place in it; what has
  been written to `dest` so far is the list `out`.  An entity is scanned by its
  letters, and the byte behind them is read wherever they end.  The tests for NULL
  are left out.
-/
import KalavaPir.Framework.Loop
import KalavaPir.Framework.Memory
import Mathlib.Algebra.Order.Ring.Int
import Mathlib.Data.List.Basic

namespace KalavaPir.Common

open KalavaPir.Framework List

/-! ## §1. The function. -/

/-- `' '`, `'\\t'`, `'\\n'` and `'\\r'`. -/
def isBlank (c : UInt8) : Bool := c == 32 || c == 9 || c == 10 || c == 13

/-- qfunc.h:54, what is between `beg` and `end`. -/
def q_trim_skip (str : List UInt8) : Option (List UInt8) :=
  match str.dropWhile isBlank with
  | [] => none
  | c :: cs => some ((c :: cs).reverse.dropWhile isBlank).reverse

/-- `while(ptr<ptr_end&&…) ptr++;` with `k` bytes in front of `ptr_end`. -/
def skipWhile (p : UInt8 → Bool) (src : Memory) : ℕ → ℕ → ℕ
  | 0, ptr => ptr
  | k + 1, ptr => if p (src ptr) then skipWhile p src k (ptr + 1) else ptr

/-- `while(ptr_end>ptr&&…) ptr_end--;` with `k` bytes behind `ptr`. -/
def trimBack (src : Memory) : ℕ → ℕ → ℕ
  | 0, ptr_end => ptr_end
  | k + 1, ptr_end => if isBlank (src (ptr_end - 1)) then trimBack src k (ptr_end - 1) else ptr_end

/-- A lower case letter. -/
def isLower (c : UInt8) : Bool := 97 ≤ c && c ≤ 122

/-- What is written for an entity, from `&` to the end of its letters or its `;`. -/
def reference (e : List UInt8) : List UInt8 :=
  if e = [38, 110, 98, 115, 112, 59] then [32]
  else if e = [38, 113, 117, 111, 116, 59] then [34]
  else if e = [38, 97, 112, 111, 115, 59] then [39]
  else if e = [38, 97, 109, 112, 59] then [38]
  else if e = [38, 108, 116, 59] then [60]
  else if e = [38, 103, 116, 59] then [60]
  else e

/-- The variables of the loop. -/
structure DenoiseState where
  ptr : ℕ
  out : List UInt8

/-- The body of `while(ptr<ptr_end) { … }`. -/
def denoiseRound (src : Memory) (ptr_end : ℕ) (max_size : ℤ) (s : DenoiseState) :
    Option (LoopStep DenoiseState (Option ℤ × List UInt8)) :=
  if s.ptr < ptr_end then
    if src s.ptr = 60 then
      let ptr := skipWhile (· != 62) src (ptr_end - (s.ptr + 1)) (s.ptr + 1)
      some (.again { s with ptr := if ptr < ptr_end then ptr + 1 else ptr })
    else if src s.ptr = 32 then
      if (s.out.length : ℤ) + 1 > max_size then some (.done (some (-2), s.out))
      else
        some (.again { ptr := skipWhile (· == 32) src (ptr_end - (s.ptr + 1)) (s.ptr + 1),
                       out := s.out ++ [src s.ptr] })
    else if src s.ptr = 13 ∨ src s.ptr = 10 then
      if (s.out.length : ℤ) + 1 > max_size then some (.done (some (-3), s.out))
      else
        some (.again
          { ptr := skipWhile (fun c => c == 13 || c == 10 || c == 32) src (ptr_end - (s.ptr + 1)) (s.ptr + 1),
            out := s.out ++ [10] })
    else if src s.ptr = 38 then
      let letters := skipWhile (fun c => isLower c && c != 59) src (ptr_end - (s.ptr + 1)) (s.ptr + 1)
      let ptr := if src letters = 59 then letters + 1 else letters
      let len := ptr - s.ptr
      if (s.out.length : ℤ) + len > max_size then some (.done (some (-4), s.out))
      else some (.again { ptr := ptr, out := s.out ++ reference (src.read s.ptr len) })
    else
      if (s.out.length : ℤ) + 1 > max_size then some (.done (some (-5), s.out))
      else some (.again { ptr := s.ptr + 1, out := s.out ++ [src s.ptr] })
  else some (.done (none, s.out))

/-- What is done behind the loop: the blanks at both ends of `out` are taken away. -/
def trimOut (dest : Memory) (out : List UInt8) : ℤ × Memory :=
  match q_trim_skip out with
  | none => (0, dest.write 0 out)
  | some l => (l.length, (dest.write 0 out).write 0 l)

/-- qfunc.h:486, with as many rounds as there can be. -/
def q_denoise (src : Memory) (srclen : ℕ) (dest : Memory) (max_size : ℤ) : Option (ℤ × Memory) :=
  if srclen = 0 ∨ max_size ≤ 0 then some (-1, dest)
  else
    let ptr := skipWhile isBlank src srclen 0
    let ptr_end := trimBack src (srclen - ptr) srclen
    (loop (denoiseRound src ptr_end max_size) (srclen + 1) { ptr := ptr, out := [] }).map fun r =>
      match r.1 with
      | some code => (code, dest.write 0 r.2)
      | none => trimOut dest r.2

/-! ## §2. Escaped texts. -/

/-- A character, or the entity that stands for it. -/
def entityOf (c : UInt8) : List UInt8 :=
  if c = 38 then [38, 97, 109, 112, 59]
  else if c = 60 then [38, 108, 116, 59]
  else if c = 62 then [38, 103, 116, 59]
  else if c = 34 then [38, 113, 117, 111, 116, 59]
  else if c = 39 then [38, 97, 112, 111, 115, 59]
  else [c]

/-- The text with its entities. -/
def escaped (t : List UInt8) : List UInt8 := t.flatMap entityOf

/-- A visible ASCII character. -/
def IsVisible (c : UInt8) : Prop := 33 ≤ c ∧ c ≤ 126

instance (c : UInt8) : Decidable (IsVisible c) := inferInstanceAs (Decidable (_ ∧ _))

/-- What an escaped character comes back as. -/
def unescaped (c : UInt8) : UInt8 := if c = 62 then 60 else c

/-- The entities have lower case names. -/
theorem entityOf_cases (c : UInt8) :
    (∃ w, entityOf c = 38 :: (w ++ [59]) ∧ (∀ b ∈ w, (isLower b && b != 59) = true) ∧
      reference (entityOf c) = [unescaped c]) ∨
    entityOf c = [c] ∧ unescaped c = c ∧ c ≠ 38 ∧ c ≠ 60 := by
  unfold entityOf
  by_cases hamp : c = 38
  · rw [if_pos hamp, hamp]
    exact Or.inl ⟨[97, 109, 112], rfl, all_eq_true.mp (by decide), by decide⟩
  rw [if_neg hamp]
  by_cases hlt : c = 60
  · rw [if_pos hlt, hlt]
    exact Or.inl ⟨[108, 116], rfl, all_eq_true.mp (by decide), by decide⟩
  rw [if_neg hlt]
  by_cases hgt : c = 62
  · rw [if_pos hgt, hgt]
    exact Or.inl ⟨[103, 116], rfl, all_eq_true.mp (by decide), by decide⟩
  rw [if_neg hgt]
  have hsame : unescaped c = c := if_neg hgt
  by_cases hquot : c = 34
  · rw [if_pos hquot, hquot]
    exact Or.inl ⟨[113, 117, 111, 116], rfl, all_eq_true.mp (by decide), by decide⟩
  rw [if_neg hquot]
  by_cases hapos : c = 39
  · rw [if_pos hapos, hapos]
    exact Or.inl ⟨[97, 112, 111, 115], rfl, all_eq_true.mp (by decide), by decide⟩
  · rw [if_neg hapos]
    exact Or.inr ⟨rfl, hsame, hamp, hlt⟩

/-! ## §3. Rounds. -/

section Rounds

variable {src : Memory} {ptr_end : ℕ} {max_size : ℤ} {s : DenoiseState}

/-- **What the loop skips**: a word of such characters up to the first other one. -/
theorem skipWhile_eq {p : UInt8 → Bool} (w : List UInt8) : ∀ {k ptr : ℕ}, src.read ptr w.length = w →
    (∀ b ∈ w, p b = true) → w.length ≤ k → p (src (ptr + w.length)) = false →
    skipWhile p src k ptr = ptr + w.length := by
  induction w with
  | nil =>
    intro k ptr _ _ _ hstop
    cases k with
    | zero => rfl
    | succ k => exact if_neg (by rw [Bool.not_eq_true]; exact hstop)
  | cons b w ih =>
    intro k ptr hread hall hk hstop
    rw [length_cons] at hread hk hstop
    obtain ⟨hhead, htail⟩ := Memory.read_eq_append (a := [b]) (b := w) (by
      exact hread)
    have hb : src ptr = b := (List.cons.inj hhead).1
    obtain ⟨k, rfl⟩ : ∃ k', k = k' + 1 := ⟨k - 1, by omega⟩
    have hnext := @ih k (ptr + 1) htail (fun b' hb' => hall b' (mem_cons_of_mem b hb')) (by omega)
      (by rw [Nat.add_assoc, Nat.add_comm 1]; exact hstop)
    rw [skipWhile, hb, if_pos (hall b mem_cons_self), hnext, length_cons]
    omega

/-- **An entity** is taken as a whole. -/
theorem denoiseRound_entity {w : List UInt8} (hread : src.read s.ptr (38 :: (w ++ [59])).length = 38 :: (w ++ [59]))
    (hall : ∀ b ∈ w, (isLower b && b != 59) = true) (hend : s.ptr + (38 :: (w ++ [59])).length ≤ ptr_end)
    (hroom : (s.out.length : ℤ) + (38 :: (w ++ [59])).length ≤ max_size) :
    denoiseRound src ptr_end max_size s = some (.again
      { ptr := s.ptr + (38 :: (w ++ [59])).length, out := s.out ++ reference (38 :: (w ++ [59])) }) := by
  have hlen : (38 :: (w ++ [59])).length = w.length + 2 := by
    rw [length_cons, length_append, length_singleton]
  obtain ⟨hamp, hrest⟩ := Memory.read_eq_append (a := [38]) (b := w ++ [59]) hread
  rw [length_singleton] at hrest
  obtain ⟨hword, hsemi⟩ := Memory.read_eq_append hrest
  have hfirst : src s.ptr = 38 := (List.cons.inj hamp).1
  have hlast : src (s.ptr + 1 + w.length) = 59 := (List.cons.inj hsemi).1
  have hskip : skipWhile (fun c => isLower c && c != 59) src (ptr_end - (s.ptr + 1)) (s.ptr + 1) =
      s.ptr + 1 + w.length := by
    apply skipWhile_eq w hword hall
    · omega
    · rw [hlast]
      decide
  have hcut : s.ptr + 1 + w.length + 1 - s.ptr = (38 :: (w ++ [59])).length := by omega
  have hnext : s.ptr + 1 + w.length + 1 = s.ptr + (38 :: (w ++ [59])).length := by omega
  unfold denoiseRound
  rw [if_pos (by omega), hfirst, if_neg (by decide), if_neg (by decide), if_neg (by decide), if_pos rfl]
  dsimp only
  rw [hskip, if_pos hlast, hcut, hread, if_neg (by omega), hnext]

/-- **Another character** is copied. -/
theorem denoiseRound_other {c : UInt8} (hc : src s.ptr = c) (hvisible : IsVisible c) (hamp : c ≠ 38)
    (hlt : c ≠ 60) (hend : s.ptr < ptr_end) (hroom : (s.out.length : ℤ) + 1 ≤ max_size) :
    denoiseRound src ptr_end max_size s = some (.again { ptr := s.ptr + 1, out := s.out ++ [c] }) := by
  have hblank : c ≠ 32 ∧ c ≠ 13 ∧ c ≠ 10 := by
    obtain ⟨hlow, -⟩ := hvisible
    refine ⟨?_, ?_, ?_⟩ <;> rintro rfl <;> exact absurd hlow (by decide)
  obtain ⟨hspace, hcr, hlf⟩ := hblank
  unfold denoiseRound
  rw [if_pos hend, hc, if_neg hlt, if_neg hspace, if_neg (not_or.mpr ⟨hcr, hlf⟩), if_neg hamp,
    if_neg (by omega)]

end Rounds

/-! ## §4. The whole text. -/

section Text

variable {src : Memory} {t : List UInt8} {max_size : ℤ}

theorem length_entityOf (c : UInt8) : 1 ≤ (entityOf c).length := by
  rcases entityOf_cases c with ⟨w, heq, -, -⟩ | ⟨heq, -⟩
  · rw [heq, length_cons]
    omega
  · rw [heq]
    exact le_rfl

theorem length_le_escaped (t : List UInt8) : t.length ≤ (escaped t).length := by
  induction t with
  | nil => exact le_rfl
  | cons c t ih =>
    have hone := length_entityOf c
    show t.length + 1 ≤ (entityOf c ++ escaped t).length
    rw [length_append]
    omega

/-- **The invariant**: the text in front of `rest` has been written. -/
structure DenoiseAt (src : Memory) (t : List UInt8) (s : DenoiseState) (rest : List UInt8) : Prop where
  front : ∃ done, t = done ++ rest ∧ s.ptr = (escaped done).length ∧ s.out = done.map unescaped
  ahead : src.read s.ptr (escaped rest).length = escaped rest

theorem escaped_append (a b : List UInt8) : escaped (a ++ b) = escaped a ++ escaped b := flatMap_append

variable {c : UInt8}

/-- **A ROUND** takes the next character. -/
theorem DenoiseAt.round {s : DenoiseState} {rest : List UInt8} (h : DenoiseAt src t s (c :: rest))
    (hvisible : IsVisible c) (hmax : ((escaped t).length : ℤ) ≤ max_size) :
    ∃ s', denoiseRound src (escaped t).length max_size s = some (.again s') ∧ DenoiseAt src t s' rest := by
  obtain ⟨⟨done, ht, hptr, hout⟩, hahead⟩ := h
  have hsplit : escaped (c :: rest) = entityOf c ++ escaped rest := flatMap_cons
  obtain ⟨hhere, hahead⟩ := Memory.read_eq_append hahead
  have htotal : (escaped t).length = s.ptr + (entityOf c).length + (escaped rest).length := by
    rw [ht, escaped_append, hsplit, length_append, length_append, hptr, Nat.add_assoc]
  have hdone := length_le_escaped done
  have houtlen : s.out.length = done.length := by rw [hout, length_map]
  have hfront : ∀ {p : ℕ}, p = s.ptr + (entityOf c).length →
      DenoiseAt src t { ptr := p, out := s.out ++ [unescaped c] } rest := by
    rintro p rfl
    refine ⟨⟨done ++ [c], ?_, ?_, ?_⟩, hahead⟩
    · rw [ht, append_assoc]
      rfl
    · show s.ptr + (entityOf c).length = _
      rw [escaped_append, length_append, ← hptr]
      congr 2
      exact (append_nil _).symm
    · show s.out ++ [unescaped c] = _
      rw [hout, map_append]
      rfl
  rcases entityOf_cases c with ⟨w, heq, hall, href⟩ | ⟨heq, hsame, hamp, hlt⟩
  · -- an entity is taken as a whole
    rw [heq] at hhere htotal href
    rw [heq] at hfront
    refine ⟨_, denoiseRound_entity hhere hall (by omega) (by omega), ?_⟩
    rw [href]
    exact hfront rfl
  -- the character stands for itself, and the round copies it
  rw [heq] at hhere htotal
  rw [heq, hsame] at hfront
  have hc : src s.ptr = c := (List.cons.inj hhere).1
  rw [length_singleton] at htotal
  exact ⟨_, denoiseRound_other hc hvisible hamp hlt (by omega) (by omega), hfront rfl⟩

/-- **The loop** goes through the whole text. -/
theorem denoise_loop (hvisible : ∀ c ∈ t, IsVisible c) (hmax : ((escaped t).length : ℤ) ≤ max_size)
    (rest : List UInt8) : ∀ {s : DenoiseState} {fuel : ℕ}, DenoiseAt src t s rest → rest.length < fuel →
      loop (denoiseRound src (escaped t).length max_size) fuel s = some (none, t.map unescaped) := by
  induction rest with
  | nil =>
    intro s fuel h hfuel
    obtain ⟨⟨done, ht, hptr, hout⟩, -⟩ := h
    obtain ⟨fuel, rfl⟩ : ∃ k, fuel = k + 1 := ⟨fuel - 1, by omega⟩
    rw [append_nil] at ht
    apply loop_done
    unfold denoiseRound
    rw [if_neg (by rw [hptr, ht]; exact Nat.lt_irrefl _), hout, ht]
  | cons c rest ih =>
    intro s fuel h hfuel
    obtain ⟨done, ht, -⟩ := h.front
    have hc : IsVisible c := by
      apply hvisible
      rw [ht]
      exact mem_append_right done mem_cons_self
    obtain ⟨s', hround, hnext⟩ := h.round hc hmax
    obtain ⟨fuel, rfl⟩ : ∃ k, fuel = k + 1 := ⟨fuel - 1, by omega⟩
    rw [length_cons] at hfuel
    rw [loop_again hround]
    exact ih hnext (by omega)

/-! ### Nothing is trimmed. -/

theorem isBlank_of_visible (h : IsVisible c) : isBlank c = false := by
  obtain ⟨hlow, -⟩ := h
  unfold isBlank
  simp only [Bool.or_eq_false_iff, beq_eq_false_iff_ne]
  refine ⟨⟨⟨?_, ?_⟩, ?_⟩, ?_⟩ <;> rintro rfl <;> exact absurd hlow (by decide)

theorem isBlank_of_mem_escaped (hvisible : ∀ c ∈ t, IsVisible c) {b : UInt8} (hb : b ∈ escaped t) :
    isBlank b = false := by
  obtain ⟨c, hc, hbc⟩ := mem_flatMap.mp hb
  rcases entityOf_cases c with ⟨w, heq, hall, -⟩ | ⟨heq, -⟩
  · rw [heq] at hbc
    rcases mem_cons.mp hbc with rfl | hbw
    · decide
    rcases mem_append.mp hbw with hbw | hbs
    · -- a letter
      have hlower := hall b hbw
      unfold isLower at hlower
      simp only [Bool.and_eq_true, decide_eq_true_eq] at hlower
      obtain ⟨⟨hlow, hhigh⟩, -⟩ := hlower
      exact isBlank_of_visible
        ⟨UInt8.le_trans (show 33 ≤ 97 by decide) hlow, UInt8.le_trans hhigh (show 122 ≤ 126 by decide)⟩
    · rw [mem_singleton.mp hbs]
      decide
  · rw [heq] at hbc
    rw [mem_singleton.mp hbc]
    exact isBlank_of_visible (hvisible c hc)

/-- Without blanks there is nothing to trim. -/
theorem q_trim_skip_eq {l : List UInt8} (hl : l ≠ []) (h : ∀ b ∈ l, isBlank b = false) :
    q_trim_skip l = some l := by
  have hkeep : ∀ {l : List UInt8}, (∀ b ∈ l, isBlank b = false) → l.dropWhile isBlank = l := by
    intro l hall
    cases l with
    | nil => rfl
    | cons b bs => rw [dropWhile_cons_of_neg (by rw [hall b mem_cons_self]; decide)]
  obtain ⟨b, bs, rfl⟩ := exists_cons_of_ne_nil hl
  have hreverse : ∀ c ∈ (b :: bs).reverse, isBlank c = false := fun c hc => h c (mem_reverse.mp hc)
  unfold q_trim_skip
  rw [hkeep h]
  dsimp only
  rw [hkeep hreverse, reverse_reverse]

theorem isVisible_unescaped (h : IsVisible c) : IsVisible (unescaped c) := by
  unfold unescaped
  split
  · exact ⟨by decide, by decide⟩
  · exact h

/-- **AN ESCAPED TEXT** comes back with `<` for every `>`. -/
theorem q_denoise_escaped (ht : t ≠ []) (hvisible : ∀ c ∈ t, IsVisible c)
    (hsrc : src.read 0 (escaped t).length = escaped t) (dest : Memory)
    (hmax : ((escaped t).length : ℤ) ≤ max_size) :
    ∃ dest', q_denoise src (escaped t).length dest max_size = some ((t.length : ℤ), dest') ∧
      dest'.read 0 t.length = t.map unescaped := by
  have hlen := length_pos_of_ne_nil ht
  have hle := length_le_escaped t
  have hbyte : ∀ i < (escaped t).length, isBlank (src i) = false := by
    intro i hi
    apply isBlank_of_mem_escaped hvisible
    rw [← hsrc]
    apply mem_map.mpr
    exact ⟨i, mem_range.mpr hi, by rw [Nat.zero_add]⟩
  have hstart : skipWhile isBlank src (escaped t).length 0 = 0 :=
    skipWhile_eq [] rfl (by simp) (Nat.zero_le _) (hbyte 0 (by omega))
  have hend : trimBack src ((escaped t).length - 0) (escaped t).length = (escaped t).length := by
    obtain ⟨k, hk⟩ : ∃ k, (escaped t).length - 0 = k + 1 := ⟨(escaped t).length - 1, by omega⟩
    rw [hk, trimBack, hbyte _ (by omega), if_neg (by decide)]
  have hat : DenoiseAt src t { ptr := 0, out := [] } t := ⟨⟨[], rfl, rfl, rfl⟩, hsrc⟩
  have hloop := denoise_loop hvisible hmax t hat (show t.length < (escaped t).length + 1 by omega)
  have hne : t.map unescaped ≠ [] := mt map_eq_nil_iff.mp ht
  have htrim := q_trim_skip_eq hne fun b hb => by
    obtain ⟨c, hc, rfl⟩ := mem_map.mp hb
    exact isBlank_of_visible (isVisible_unescaped (hvisible c hc))
  have hlength : (t.map unescaped).length = t.length := length_map _
  unfold q_denoise
  rw [if_neg (by omega), hstart]
  dsimp only
  rw [hend, hloop, Option.map_some]
  unfold trimOut
  rw [htrim]
  dsimp only
  rw [hlength]
  refine ⟨_, rfl, ?_⟩
  have hread := Memory.read_write_self (dest.write 0 (t.map unescaped)) 0 (t.map unescaped)
  rw [hlength] at hread
  exact hread

end Text

/-! ## §5. When it comes back as it was. -/

/-- The escaped text comes back as the text. -/
def DenoiseMeets (src : Memory) (t : List UInt8) (dest : Memory) (max_size : ℤ) : Prop :=
  ∃ r, q_denoise src (escaped t).length dest max_size = some r ∧ r.1 = t.length ∧
    r.2.read 0 t.length = t

theorem map_unescaped_iff (t : List UInt8) : t.map unescaped = t ↔ 62 ∉ t := by
  have hid : t.map id = t := map_id t
  constructor
  · intro hsame hmem
    -- the character that comes back in its place is another one
    have hfixed : unescaped 62 = id 62 := map_inj_left.mp (hsame.trans hid.symm) 62 hmem
    exact absurd hfixed (by decide)
  · intro hnone
    refine Eq.trans ?_ hid
    apply map_congr_left
    intro c hc
    show (if c = 62 then 60 else c) = c
    rw [if_neg]
    rintro rfl
    exact hnone hc

/-- **WHEN IT DOES**: there is no `>` in the text. -/
theorem q_denoise_meets_iff {src : Memory} {t : List UInt8} {max_size : ℤ} (ht : t ≠ [])
    (hvisible : ∀ c ∈ t, IsVisible c) (hsrc : src.read 0 (escaped t).length = escaped t) (dest : Memory)
    (hmax : ((escaped t).length : ℤ) ≤ max_size) : DenoiseMeets src t dest max_size ↔ 62 ∉ t := by
  obtain ⟨dest', hrun, hread⟩ := q_denoise_escaped ht hvisible hsrc dest hmax
  rw [← map_unescaped_iff]
  constructor
  · rintro ⟨r, hrun', -, hsame⟩
    rw [hrun, Option.some_inj] at hrun'
    subst hrun'
    exact hread.symm.trans hsame
  · intro hsame
    refine ⟨_, hrun, rfl, ?_⟩
    show dest'.read 0 t.length = t
    rw [hread, hsame]

/-- `a&b;<"'` next to each other. -/
theorem q_denoise_meets_entities : DenoiseMeets
    (fun i => (escaped [97, 38, 98, 59, 60, 34, 39]).getD i 0) [97, 38, 98, 59, 60, 34, 39] (fun _ => 0) 30 :=
  (q_denoise_meets_iff (by decide) (by decide +kernel) (by decide) (fun _ => 0) (by decide)).mpr
    (by decide)

/-- **`&gt;`** comes back as `<`. -/
theorem q_denoise_greater : ¬ ∀ (src : Memory) (t : List UInt8) (dest : Memory) (max_size : ℤ), t ≠ [] →
    (∀ c ∈ t, IsVisible c) → src.read 0 (escaped t).length = escaped t →
    ((escaped t).length : ℤ) ≤ max_size → DenoiseMeets src t dest max_size := by
  intro h
  obtain ⟨r, hrun, -, hread⟩ := h (fun i => (escaped [62]).getD i 0) [62] (fun _ => 0) 4 (by decide)
    (by decide +kernel) (by decide) (by decide)
  have hless : r.2.read 0 1 = [60] := by
    cases hrun
    decide
  rw [List.length_singleton, hless] at hread
  exact absurd hread (by decide)

end KalavaPir.Common
