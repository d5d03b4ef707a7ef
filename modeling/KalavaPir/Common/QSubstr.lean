/-
  KalavaPir.Common.QSubstr — the pieces between two delimiters, `common/qfunc.h`.

  `q_substr_all` looks for both delimiters from the same place.  A `size_t` is a
  number below 2^64, so the length `pos2-pos1-s1.length()` of a piece is a huge one
  where the second delimiter comes too early, and `substr` gives all of the rest.
-/
import KalavaPir.Common.QSplit
import KalavaPir.Framework.Enclosing

namespace KalavaPir.Common

namespace QSubstr

open KalavaPir.Framework List

/-! ## §1. The function (qfunc.h:1200). -/

/-- `ss.find(s, pos)`. -/
def find (ss s : List UInt8) (pos : ℕ) : Option ℕ :=
  if pos ≤ ss.length then (strstr s (ss.drop pos)).map (pos + ·) else none

/-- `ss.substr(pos, n)`; behind the end it throws. -/
def substr (ss : List UInt8) (pos n : ℕ) : Option (List UInt8) :=
  if pos ≤ ss.length then some ((ss.drop pos).take n) else none

/-- `pos2-pos1-s1.length()` of `size_t`. -/
def between (pos1 pos2 len1 : ℕ) : ℕ := (((pos2 : ℤ) - pos1 - len1) % 2 ^ 64).toNat

/-- The variables of the loop. -/
structure State where
  pos : ℕ
  elems : List (List UInt8)

/-- The condition of the loop and its body. -/
def round (ss s1 s2 : List UInt8) (s : State) : Option (LoopStep State (List (List UInt8))) :=
  match find ss s1 s.pos with
  | none => some (.done s.elems)
  | some pos1 =>
    match find ss s2 s.pos with
    | none => some (.done s.elems)
    | some pos2 =>
      (substr ss (pos1 + s1.length) (between pos1 pos2 s1.length)).map fun elem =>
        .again { pos := pos2 + s2.length, elems := s.elems ++ [elem] }

/-- `q_substr_all(ss, s1, s2)`, with as many rounds as there can be. -/
def q_substr_all (ss s1 s2 : List UInt8) : Option (List (List UInt8)) :=
  loop (round ss s1 s2) (ss.length + 1) { pos := 0, elems := [] }

/-- `max_size()` of a string, and one more. -/
def STRING_LIMIT : ℕ := 2 ^ 63

/-! ## §2. One round. -/

section Rounds

variable {ss s1 s2 s : List UInt8} {pos pos1 pos2 p q : ℕ}

/-- **`find`** gives the first place from `pos` on, or there is none. -/
theorem find_cases (hs : s ≠ []) (hpos : pos ≤ ss.length) :
    (∃ p, find ss s pos = some (pos + p) ∧ FirstAt s (ss.drop pos) p) ∨
      find ss s pos = none ∧ ∀ q, ¬ s <+: (ss.drop pos).drop q := by
  unfold find
  rw [if_pos hpos]
  rcases strstr_cases hs (ss.drop pos) with ⟨p, hp, hfirst⟩ | ⟨hnone, hno⟩
  · rw [hp]
    exact Or.inl ⟨p, rfl, hfirst⟩
  · rw [hnone]
    exact Or.inr ⟨rfl, hno⟩

theorem between_of_le {len1 : ℕ} (hle : pos1 + len1 ≤ pos2) (hlt : pos2 < 2 ^ 64) :
    between pos1 pos2 len1 = pos2 - (pos1 + len1) := by
  unfold between
  omega

theorem le_between {len1 : ℕ} (hlt : pos2 < pos1 + len1) (hsize : pos1 + len1 ≤ ss.length)
    (hss : ss.length < STRING_LIMIT) : ss.length ≤ between pos1 pos2 len1 := by
  have hlimit : ss.length < 2 ^ 63 := hss
  unfold between
  omega

/-- What the functions of `std::string` return. -/
theorem substr_rest {n : ℕ} (hpos : pos ≤ ss.length) (hn : ss.length ≤ n) :
    substr ss pos n = some (ss.drop pos) := by
  unfold substr
  rw [if_pos hpos, take_of_length_le]
  rw [length_drop]
  omega

/-- **FROM ANY PLACE ON** the loop ends, and what it adds are the pieces of the rest
    exactly when the delimiters are in order there. -/
theorem loop_round (hs1 : s1 ≠ []) (hs2 : s2 ≠ []) (hss : ss.length < STRING_LIMIT) (fuel : ℕ) :
    ∀ {pos : ℕ} {elems : List (List UInt8)}, pos ≤ ss.length → ss.length - pos < fuel →
      ∃ more, loop (round ss s1 s2) fuel { pos := pos, elems := elems } = some (elems ++ more) ∧
        (Enclosed s1 s2 (ss.drop pos) more ↔ InOrder s1 s2 (ss.drop pos)) := by
  induction fuel with
  | zero =>
    intro pos elems hpos hfuel
    omega
  | succ fuel ih =>
    intro pos elems hpos hfuel
    have hpos2 := length_pos_of_ne_nil hs2
    obtain ⟨p, hp, hopen⟩ | ⟨hnone, hno⟩ := find_cases hs1 hpos
    · obtain ⟨q, hq, hclose⟩ | ⟨hnone, hno⟩ := find_cases hs2 hpos
      · have hfit1 := add_length_le_of_occurs hs1 hopen.occurs
        have hfit2 := add_length_le_of_occurs hs2 hclose.occurs
        rw [length_drop] at hfit1 hfit2
        have hlt : ss.length < 2 ^ 63 := hss
        by_cases hle : p + s1.length ≤ q
        · -- in order: a piece, and on behind the closing delimiter
          have hbody : round ss s1 s2 { pos := pos, elems := elems } = some (.again
              { pos := pos + q + s2.length
                elems := elems ++ [((ss.drop pos).drop (p + s1.length)).take (q - (p + s1.length))] }) := by
            unfold round
            rw [hp, hq]
            dsimp only
            unfold substr
            rw [between_of_le (by omega) (by omega), if_pos (by omega), Option.map_some, drop_drop]
            have hlen : pos + q - (pos + p + s1.length) = q - (p + s1.length) := by omega
            rw [hlen, Nat.add_assoc pos p, Nat.add_assoc pos q]
          obtain ⟨more, hloop, hiff⟩ := @ih (pos + q + s2.length)
            (elems ++ [((ss.drop pos).drop (p + s1.length)).take (q - (p + s1.length))]) (by omega) (by omega)
          refine ⟨((ss.drop pos).drop (p + s1.length)).take (q - (p + s1.length)) :: more, ?_, ?_⟩
          · rw [loop_again hbody, hloop, append_assoc]
            rfl
          · have hrest : ((ss.drop pos).drop (q + s2.length)) = ss.drop (pos + q + s2.length) := by
              rw [drop_drop, Nat.add_assoc]
            have hback : p + s1.length + (q - (p + s1.length)) + s2.length = q + s2.length := by omega
            rw [enclosed_cons_iff hopen (hclose.drop hle), InOrder.next_iff hopen hclose hle, hback, hrest, ← hiff]
            exact and_iff_right rfl
        · -- too early: all of the rest is taken for a piece
          have hbody : round ss s1 s2 { pos := pos, elems := elems } = some (.again
              { pos := pos + q + s2.length, elems := elems ++ [(ss.drop pos).drop (p + s1.length)] }) := by
            unfold round
            rw [hp, hq]
            dsimp only
            rw [substr_rest (by omega) (le_between (by omega) (by omega) hss), Option.map_some, drop_drop,
              Nat.add_assoc pos p]
          obtain ⟨more, hloop, -⟩ := @ih (pos + q + s2.length)
            (elems ++ [(ss.drop pos).drop (p + s1.length)]) (by omega) (by omega)
          refine ⟨(ss.drop pos).drop (p + s1.length) :: more, ?_, ?_⟩
          · rw [loop_again hbody, hloop, append_assoc]
            rfl
          · exact iff_of_false (not_enclosed_rest hs2 hopen) (not_inOrder hopen hclose (by omega))
      · have hbody : round ss s1 s2 { pos := pos, elems := elems } = some (.done elems) := by
          unfold round
          rw [hp, hnone]
        refine ⟨[], ?_, ?_⟩
        · rw [loop_done hbody, append_nil]
        · refine iff_of_true (.no_close hopen fun d => ?_) (.no_close hno)
          rw [drop_drop]
          exact hno _
    · have hbody : round ss s1 s2 { pos := pos, elems := elems } = some (.done elems) := by
        unfold round
        rw [hnone]
      refine ⟨[], ?_, ?_⟩
      · rw [loop_done hbody, append_nil]
      · exact iff_of_true (.no_open hno) (.no_open hno)

/-! ## §3. The function. -/

/-- **THE LOOP ENDS, AND ITS PIECES** are those between the delimiters, none of which
    contains the closing one, exactly when, from the beginning on and behind every
    closing delimiter taken, none begins before the end of the next opening one. -/
theorem q_substr_all_iff (hs1 : s1 ≠ []) (hs2 : s2 ≠ []) (hss : ss.length < STRING_LIMIT) :
    ∃ elems, q_substr_all ss s1 s2 = some elems ∧
      (Enclosed s1 s2 ss elems ∧ (∀ x ∈ elems, ¬ s2 <:+: x) ↔ InOrder s1 s2 ss) := by
  obtain ⟨elems, hloop, hiff⟩ := @loop_round ss s1 s2 hs1 hs2 hss (ss.length + 1) 0 [] (Nat.zero_le _) (by omega)
  refine ⟨elems, hloop, ?_⟩
  rw [List.drop_zero] at hiff
  rw [← hiff]
  exact ⟨fun h => h.1, fun h => ⟨h, h.not_infix hs2⟩⟩

/-- `<a>` and `<b>`. -/
theorem q_substr_all_ab :
    ∃ elems, q_substr_all [60, 97, 62, 60, 98, 62] [60] [62] = some elems ∧
      (Enclosed [60] [62] [60, 97, 62, 60, 98, 62] elems ∧ (∀ x ∈ elems, ¬ [62] <:+: x) ↔
        InOrder [60] [62] ([60, 97, 62, 60, 98, 62] : List UInt8)) :=
  @q_substr_all_iff [60, 97, 62, 60, 98, 62] [60] [62] (by decide) (by decide) (by decide)

/-- With `">"` in front, all of `"<a>"` behind its opening delimiter is a piece. -/
theorem q_substr_all_early :
    ¬ ∀ ss s1 s2 : List UInt8, s1 ≠ [] → s2 ≠ [] → ss.length < STRING_LIMIT →
      ∃ elems, q_substr_all ss s1 s2 = some elems ∧ Enclosed s1 s2 ss elems ∧ ∀ x ∈ elems, ¬ s2 <:+: x := by
  intro h
  obtain ⟨elems, hresult, -, hnone⟩ := h [62, 60, 97, 62] [60] [62] (by decide) (by decide) (by decide)
  have hpieces : q_substr_all [62, 60, 97, 62] [60] [62] = some [[97, 62], [97]] := by decide
  rw [hpieces] at hresult
  cases hresult
  exact hnone [97, 62] List.mem_cons_self ⟨[97], [], rfl⟩

end Rounds

end QSubstr

end KalavaPir.Common
