/-
  KalavaPir.Common.QToNum — Chinese numerals, `common/qfunc.h`.

  Digits and units are put into the arrays `num` and `pos`, one cell for a unit with the
  digits in front of it, and `__num` collapses the cells in front of a greater unit into
  the cell of that unit.  An array is a function of the place; the pointers `num+w` and
  `pos+w` that the recursion gets are a place from which it counts.  The text is in UTF-8,
  three bytes for a letter, and a NUL stands behind it.
-/
import KalavaPir.Common.Int32
import KalavaPir.Framework.Loop
import KalavaPir.Framework.ArrayPrefix
import Mathlib.Algebra.BigOperators.Group.List.Basic

namespace KalavaPir.Common

open KalavaPir.Framework List Function

namespace QToNum

/-! ## §1. The evaluation. -/

/-- The arrays `num` and `pos`. -/
structure Units where
  num : ℕ → ℤ
  pos : ℕ → ℤ

/-- The variables of `__num`. -/
structure NumState where
  w : ℕ
  len : ℤ
  a : Units

/-- `while(w&&(pos[w-1]<=pos[rPos])) w--;` -/
def scanLeft (a : Units) (base : ℕ) (unit : ℤ) : ℕ → ℕ
  | 0 => 0
  | w + 1 => if a.pos (base + w) ≤ unit then scanLeft a base unit w else w + 1

/-- What is right of `rPos` is moved to the left, with the unit at `rPos`, up to the new
`len`. -/
def moveLeft (a : Units) (base w rPos : ℕ) (len : ℤ) : Units where
  num := moveDown a.num (base + w + 1) (rPos - w) (len - (w + 1)).toNat
  pos := moveDown a.pos (base + w) (rPos - w) (len - w).toNat

/-- The body of `while(w>0) { … }`, with the recursive call. -/
def numRound (rec : ℕ → ℤ → Units → Option (ℤ × Units)) (base : ℕ) (s : NumState) :
    Option (LoopStep NumState (ℤ × Units)) :=
  if s.w = 0 then some (.done (s.len, s.a))
  else if s.a.pos (base + (s.w - 1)) ≤ s.a.pos (base + s.w) then
    let rPos := s.w
    let w := scanLeft s.a base (s.a.pos (base + rPos)) (rPos - 1)
    (rec (base + w) ((rPos : ℤ) - w) s.a).bind fun (value, a) =>
      (int32 (value + a.num (base + rPos))).bind fun sum =>
        -- `w` has been subtracted where it had to be added
        let len := s.len - rPos - w
        let a := { a with num := update a.num (base + w) sum }
        some (.again ⟨w - 1, len, moveLeft a base w rPos len⟩)
  else some (.again { s with w := s.w - 1 })

/-- The `switch` over the units. -/
def unitValue (pos : ℤ) : ℤ :=
  if pos = 10 then 10
  else if pos = 11 then 100
  else if pos = 12 then 1000
  else if pos = 13 then 10000
  else if pos = 14 then 100000000
  else 1

/-- The body of the last loop. -/
def addCell (value num pos : ℤ) : Option ℤ :=
  if num ≠ 0 then (int32 (unitValue pos * num)).bind fun v => int32 (value + v)
  else if pos ≠ 0 then int32 (value + unitValue pos)
  else some value

/-- The loop that adds up the cells. -/
def sumUnits (a : Units) (i : ℕ) (value : ℤ) : ℕ → Option ℤ
  | 0 => some value
  | n + 1 => (addCell value (a.num i) (a.pos i)).bind fun value => sumUnits a (i + 1) value n

/-- `__num(num+base, pos+base, len)`, with fuel for the recursion. -/
def num_ : ℕ → ℕ → ℤ → Units → Option (ℤ × Units)
  | 0, _, _, _ => none
  | depth + 1, base, len, a =>
    (loop (numRound (num_ depth) base) (len.toNat + 1) ⟨(len - 1).toNat, len, a⟩).bind
      fun (len, a) => (sumUnits a base 0 len.toNat).map fun value => (value, a)

/-! ## §2. The text. -/

/-- `"零一壹二贰三叁四肆五伍六陆七柒八捌九玖十拾百佰千仟万萬亿億两"`. -/
def NUMBER : List (List UInt8) :=
  [[233, 155, 182], [228, 184, 128], [229, 163, 185], [228, 186, 140], [232, 180, 176],
    [228, 184, 137], [229, 143, 129], [229, 155, 155], [232, 130, 134], [228, 186, 148],
    [228, 188, 141], [229, 133, 173], [233, 153, 134], [228, 184, 131], [230, 159, 146],
    [229, 133, 171], [230, 141, 140], [228, 185, 157], [231, 142, 150], [229, 141, 129],
    [230, 139, 190], [231, 153, 190], [228, 189, 176], [229, 141, 131], [228, 187, 159],
    [228, 184, 135], [232, 144, 172], [228, 186, 191], [229, 132, 132], [228, 184, 164]]

/-- What a letter or an Arabic digit stands for, and how many bytes it has. -/
def readLetter (rest : List UInt8) : Option (ℕ × ℕ) :=
  match rest with
  | [] => none
  | c :: _ =>
    if 48 ≤ c ∧ c ≤ 57 then some (c.toNat - 48, 1)
    else
      let x := NUMBER.findIdx fun letter => rest.take 3 == letter
      if x = 30 then none
      else if x = 29 then some (2, 3)
      else some ((x + 1) / 2, 3)

/-- The variables of `q_to_num`: `rest` is what `p` points to. -/
structure ReadState where
  rest : List UInt8
  len : ℕ
  y : Bool
  a : Units

/-- A unit closes the cell, a digit goes on with it. -/
def putLetter (x : ℕ) (s : ReadState) : Option ReadState :=
  if 10 ≤ x then
    some { s with
      len := s.len + 1
      y := true
      a := { s.a with pos := update s.a.pos s.len x } }
  else
    (int32 (s.a.num s.len * 10 + x)).map fun digits =>
      { s with
        y := if x = 0 then false else s.y
        a := { s.a with num := update s.a.num s.len digits } }

/-- `while(*p==' '||*p==',') p++;` -/
def skipSeparators (rest : List UInt8) : List UInt8 := rest.dropWhile fun c => c == 32 || c == 44

/-- The body of `while(len<32&&(p<src+srclen)) { … }`. -/
def readRound (s : ReadState) : Option (LoopStep ReadState ReadState) :=
  if s.len < 32 ∧ s.rest ≠ [] then
    match readLetter s.rest with
    | none => some (.done s)
    | some (x, k) => (putLetter x { s with rest := s.rest.drop k }).map fun s =>
      .again { s with rest := skipSeparators s.rest }
  else some (.done s)

/-- The last digit without a unit gets the one below that of the cell before, if there
is no zero between them. -/
def closeLast (s : ReadState) : ReadState :=
  if s.a.num s.len ≠ 0 then
    let pos :=
      if s.y ∧ s.a.pos s.len = 0 ∧ 11 ≤ s.a.pos (s.len - 1) then
        update s.a.pos s.len (s.a.pos (s.len - 1) - 1)
      else s.a.pos
    { s with len := s.len + 1, a := { s.a with pos := pos } }
  else s

/-- `num` and `pos` have 32 cells. -/
def q_to_num (src : List UInt8) : Option ℤ :=
  if src = [] then some (-1)
  else
    (loop readRound (src.length + 1) ⟨src, 0, false, ⟨fun _ => 0, fun _ => 0⟩⟩).bind fun s =>
      if s.rest.length = src.length then some (-2)
      else if s.len = 0 then some (s.a.num 0)
      else if s.len = 32 then none
      else
        let s := closeLast s
        (num_ (s.len + 1) 0 s.len s.a).map fun r => r.1

/-! ## §3. What the cells are worth. -/

/-- The contribution of a cell, a number and its unit. -/
def worth (c : ℤ × ℤ) : ℤ :=
  if c.1 ≠ 0 then unitValue c.2 * c.1 else if c.2 ≠ 0 then unitValue c.2 else 0

/-- What the cells are worth. -/
def total (l : List (ℤ × ℤ)) : ℤ := (l.map worth).sum

theorem unitValue_pos (pos : ℤ) : 1 ≤ unitValue pos := by
  unfold unitValue
  split_ifs <;> decide

theorem worth_nonneg {c : ℤ × ℤ} (h : 0 ≤ c.1) : 0 ≤ worth c := by
  have hunit := unitValue_pos c.2
  unfold worth
  split_ifs with hnum hpos
  · exact mul_nonneg (by omega) h
  · omega
  · exact le_refl 0

theorem total_nil : total [] = 0 := rfl

theorem total_cons (c : ℤ × ℤ) (l : List (ℤ × ℤ)) : total (c :: l) = worth c + total l := by
  rfl

theorem total_append (l m : List (ℤ × ℤ)) : total (l ++ m) = total l + total m := by
  unfold total
  rw [map_append, sum_append]

theorem total_nonneg {l : List (ℤ × ℤ)} (h : ∀ c ∈ l, 0 ≤ c.1) : 0 ≤ total l := by
  induction l with
  | nil => exact le_refl 0
  | cons c l ih =>
    obtain ⟨hc, hl⟩ := forall_mem_cons.mp h
    exact add_nonneg (worth_nonneg hc) (ih hl)

/-- The cells from `i` on. -/
def Shows (a : Units) (i : ℕ) (l : List (ℤ × ℤ)) : Prop :=
  ∀ k c, l[k]? = some c → a.num (i + k) = c.1 ∧ a.pos (i + k) = c.2

section Cells

variable {a : Units} {i : ℕ} {l m : List (ℤ × ℤ)} {c : ℤ × ℤ}

theorem shows_cons : Shows a i (c :: l) ↔ (a.num i = c.1 ∧ a.pos i = c.2) ∧ Shows a (i + 1) l := by
  constructor
  · intro h
    refine ⟨h 0 c rfl, fun k d hd => ?_⟩
    rw [Nat.add_assoc, Nat.add_comm 1 k]
    exact h (k + 1) d hd
  · rintro ⟨hc, hl⟩ k d hd
    cases k with
    | zero =>
      cases hd
      exact hc
    | succ k =>
      rw [← Nat.add_assoc, Nat.add_right_comm]
      exact hl k d hd

theorem shows_append : Shows a i (l ++ m) ↔ Shows a i l ∧ Shows a (i + l.length) m := by
  induction l generalizing i with
  | nil => exact ⟨fun h => ⟨nofun, h⟩, fun h => h.2⟩
  | cons c l ih =>
    rw [cons_append, shows_cons, shows_cons, ih, length_cons, Nat.add_assoc i 1,
      Nat.add_comm 1]
    exact and_assoc.symm

theorem addCell_eq {value : ℤ} (hvalue : 0 ≤ value) (hc : 0 ≤ c.1) (hmax : value + worth c ≤ INT32_MAX) :
    addCell value c.1 c.2 = some (value + worth c) := by
  have hworth := worth_nonneg hc
  unfold worth at hworth hmax ⊢
  unfold addCell
  by_cases hnum : c.1 ≠ 0
  · rw [if_pos hnum] at hworth hmax ⊢
    rw [if_pos hnum, int32_of_le hworth (by omega), Option.bind_some,
      int32_of_le (by omega) hmax]
  rw [if_neg hnum] at hworth hmax ⊢
  rw [if_neg hnum]
  by_cases hpos : c.2 ≠ 0
  · rw [if_pos hpos] at hworth hmax ⊢
    rw [if_pos hpos, int32_of_le (by omega) hmax]
  · rw [if_neg hpos, if_neg hpos, add_zero]

/-- **The last loop** adds up what the cells are worth. -/
theorem sumUnits_eq (l : List (ℤ × ℤ)) : ∀ {i : ℕ} {value : ℤ}, Shows a i l → (∀ c ∈ l, 0 ≤ c.1) →
    0 ≤ value → value + total l ≤ INT32_MAX → sumUnits a i value l.length = some (value + total l) := by
  induction l with
  | nil =>
    intro i value _ _ _ _
    rw [total_nil, add_zero]
    rfl
  | cons c l ih =>
    intro i value hshows hl hvalue hmax
    obtain ⟨⟨hnum, hpos⟩, hrest⟩ := shows_cons.mp hshows
    obtain ⟨hc, hl⟩ := forall_mem_cons.mp hl
    rw [total_cons, ← add_assoc] at hmax ⊢
    have hworth := worth_nonneg hc
    have htotal := total_nonneg hl
    show (addCell value (a.num i) (a.pos i)).bind _ = _
    rw [hnum, hpos, addCell_eq hvalue hc (by omega), Option.bind_some]
    exact ih hrest hl (by omega) hmax

end Cells

/-! ## §4. Units that go down. -/

/-- Every unit is smaller than those in front of it. -/
def Descending (l : List (ℤ × ℤ)) : Prop := l.Pairwise fun c d => d.2 < c.2

section Descends

variable {a : Units} {base : ℕ} {l X R : List (ℤ × ℤ)} {rec : ℕ → ℤ → Units → Option (ℤ × Units)}

theorem Shows.pos_lt (h : Shows a base l) (hl : Descending l) {k : ℕ} (hk : k + 1 < l.length) :
    a.pos (base + (k + 1)) < a.pos (base + k) := by
  rw [(h k _ (getElem?_eq_getElem (by omega))).2,
    (h (k + 1) _ (getElem?_eq_getElem hk)).2]
  exact pairwise_iff_getElem.mp hl k (k + 1) (by omega) hk (Nat.lt_succ_self k)

/-- The loop passes cells whose units go down. -/
theorem loop_passes (len : ℤ) (fuel lo n : ℕ)
    (h : ∀ k, lo ≤ k → k < lo + n → a.pos (base + (k + 1)) < a.pos (base + k)) :
    loop (numRound rec base) (fuel + n) ⟨lo + n, len, a⟩ = loop (numRound rec base) fuel ⟨lo, len, a⟩ := by
  induction n with
  | zero => rfl
  | succ n ih =>
    have hround : numRound rec base ⟨lo + (n + 1), len, a⟩ = some (.again ⟨lo + n, len, a⟩) := by
      have hlast : ¬ a.pos (base + (lo + (n + 1) - 1)) ≤ a.pos (base + (lo + (n + 1))) :=
        not_le.mpr (h (lo + n) (by omega) (by omega))
      unfold numRound
      simp only
      rw [if_neg (by omega), if_neg hlast]
      rfl
    rw [← Nat.add_assoc fuel, loop_again hround]
    exact ih fun k hk hlt => h k hk (by omega)

theorem loop_ended (len : ℤ) (fuel : ℕ) : loop (numRound rec base) (fuel + 1) ⟨0, len, a⟩ = some (len, a) :=
  loop_done rfl fuel

/-- **Units that go down** are only added up. -/
theorem num_of_descending (hshows : Shows a base l) (hl : Descending l) (hnum : ∀ c ∈ l, 0 ≤ c.1)
    (hmax : total l ≤ INT32_MAX) (depth : ℕ) : num_ (depth + 1) base l.length a = some (total l, a) := by
  have hloop : loop (numRound (num_ depth) base) ((l.length : ℤ).toNat + 1)
      ⟨((l.length : ℤ) - 1).toNat, l.length, a⟩ = some ((l.length : ℤ), a) := by
    have hfuel : (l.length : ℤ).toNat + 1
        = (1 + (l.length - (l.length - 1))) + (l.length - 1) := by omega
    have hstart : ((l.length : ℤ) - 1).toNat = 0 + (l.length - 1) := by omega
    rw [hfuel, hstart, loop_passes _ _ 0 _ fun k _ hk => hshows.pos_lt hl (by omega),
      Nat.add_comm 1, loop_ended]
  show (loop _ _ _).bind _ = _
  rw [hloop, Option.bind_some]
  show (sumUnits a base 0 (l.length : ℤ).toNat).map _ = _
  rw [Int.toNat_natCast, sumUnits_eq l hshows hnum (le_refl 0) (by omega), zero_add]
  rfl

/-- Where the search to the left stops. -/
theorem scanLeft_eq {unit : ℤ} (left n : ℕ) (h : ∀ k < n, a.pos (base + (left + k)) ≤ unit)
    (hstop : left = 0 ∨ unit < a.pos (base + (left - 1))) : scanLeft a base unit (left + n) = left := by
  induction n with
  | zero =>
    cases left with
    | zero => rfl
    | succ w =>
      have hgreater : unit < a.pos (base + w) := by
        rcases hstop with hzero | hgreater
        · omega
        · exact hgreater
      show (if a.pos (base + w) ≤ unit then _ else w + 1) = w + 1
      rw [if_neg (not_le.mpr hgreater)]
  | succ n ih =>
    show (if a.pos (base + (left + n)) ≤ unit then scanLeft a base unit (left + n) else _) = left
    rw [if_pos (h n (Nat.lt_succ_self n))]
    exact ih fun k hk => h k (by omega)

end Descends

/-! ## §5. A group in front of a greater unit. -/

section Collapse

variable {a : Units} {Y X R : List (ℤ × ℤ)} {d u : ℤ}

/-- The arrays after a group behind `left` cells has been collapsed into `sum`. -/
def collapsed (a : Units) (left rPos : ℕ) (sum len : ℤ) : Units :=
  moveLeft { a with num := update a.num (0 + left) sum } 0 left rPos len

/-- **The round that collapses** the cells `X` into the one behind them. -/
theorem numRound_collapses (h : Shows a 0 (Y ++ X ++ (d, u) :: R)) (hne : X ≠ [])
    (hdesc : Descending X) (hless : ∀ c ∈ X, c.2 ≤ u) (hnum : ∀ c ∈ X, 0 ≤ c.1) (hd : 0 ≤ d)
    (hstop : Y.length = 0 ∨ u < a.pos (Y.length - 1)) (hmax : total X + d ≤ INT32_MAX) (depth : ℕ) (len : ℤ) :
    numRound (num_ (depth + 1)) 0 ⟨Y.length + X.length, len, a⟩
      = some (.again ⟨Y.length - 1, len - (Y.length + X.length : ℕ) - Y.length,
          collapsed a Y.length (Y.length + X.length) (total X + d)
            (len - (Y.length + X.length : ℕ) - Y.length)⟩) := by
  have hpos := length_pos_iff.mpr hne
  obtain ⟨hfront, hback⟩ := shows_append.mp h
  have hX : Shows a Y.length X := by
    have hX := (shows_append.mp hfront).2
    rwa [Nat.zero_add] at hX
  have hcell : a.num (Y.length + X.length) = d ∧ a.pos (Y.length + X.length) = u := by
    have hcell := (shows_cons.mp hback).1
    rwa [Nat.zero_add, length_append] at hcell
  have hle : ∀ k < X.length, a.pos (Y.length + k) ≤ u := by
    intro k hk
    rw [(hX k _ (getElem?_eq_getElem hk)).2]
    exact hless _ (getElem_mem hk)
  have hlast : a.pos (0 + (Y.length + X.length - 1)) ≤ a.pos (0 + (Y.length + X.length)) := by
    rw [Nat.zero_add, Nat.zero_add, hcell.2, Nat.add_sub_assoc hpos]
    exact hle _ (by omega)
  have hscan : scanLeft a 0 (a.pos (0 + (Y.length + X.length))) (Y.length + X.length - 1)
      = Y.length := by
    rw [Nat.zero_add, hcell.2, Nat.add_sub_assoc hpos]
    apply scanLeft_eq
    · intro k hk
      rw [Nat.zero_add]
      exact hle k (by omega)
    · rw [Nat.zero_add]
      exact hstop
  have htotal := total_nonneg hnum
  have hrec : num_ (depth + 1) (0 + Y.length) (((Y.length + X.length : ℕ) : ℤ) - Y.length) a
      = some (total X, a) := by
    have hlen : ((Y.length + X.length : ℕ) : ℤ) - Y.length = X.length := by omega
    rw [Nat.zero_add, hlen]
    exact num_of_descending hX hdesc hnum (by omega) depth
  have hsum : int32 (total X + a.num (0 + (Y.length + X.length))) = some (total X + d) := by
    rw [Nat.zero_add, hcell.1]
    exact int32_of_le (by omega) hmax
  unfold numRound
  simp only
  rw [if_neg (by omega), if_pos hlast, hscan, hrec, Option.bind_some]
  rw [hsum, Option.bind_some]
  rfl

section Collapsed

variable {left rPos k : ℕ} {len : ℤ} (a : Units) (sum : ℤ)

theorem collapsed_left (hk : k < left) : (collapsed a left rPos sum len).num k = a.num k
    ∧ (collapsed a left rPos sum len).pos k = a.pos k := by
  unfold collapsed moveLeft
  simp only [moveDown_apply]
  rw [if_neg (by omega), if_neg (by omega), update_of_ne (by omega)]
  exact ⟨rfl, rfl⟩

theorem collapsed_at (hlen : left < len.toNat) (hr : left ≤ rPos) :
    (collapsed a left rPos sum len).num left = sum
      ∧ (collapsed a left rPos sum len).pos left = a.pos rPos := by
  unfold collapsed moveLeft
  simp only [moveDown_apply, Nat.zero_add]
  rw [if_neg (by omega), if_pos (by omega), update_self, Nat.add_sub_cancel' hr]
  exact ⟨rfl, rfl⟩

theorem collapsed_right (hleft : left < k) (hk : k < len.toNat) (hr : left < rPos) :
    (collapsed a left rPos sum len).num k = a.num (rPos + (k - left))
      ∧ (collapsed a left rPos sum len).pos k = a.pos (rPos + (k - left)) := by
  have hplace : k + (rPos - left) = rPos + (k - left) := by omega
  unfold collapsed moveLeft
  simp only [moveDown_apply, Nat.zero_add]
  rw [if_pos (by omega), if_pos (by omega), update_of_ne (by omega), hplace]
  exact ⟨rfl, rfl⟩

end Collapsed

/-- **What stands in the arrays then**, as far as the new length goes. -/
theorem shows_collapsed (h : Shows a 0 (Y ++ X ++ (d, u) :: R)) (hne : X ≠ []) (sum len : ℤ) :
    Shows (collapsed a Y.length (Y.length + X.length) sum len) 0 ((Y ++ (sum, u) :: R).take len.toNat)
      ∧ Shows (collapsed a Y.length (Y.length + X.length) sum len) 0 Y := by
  have hpos := length_pos_iff.mpr hne
  have hY : Shows a 0 Y := (shows_append.mp (shows_append.mp h).1).1
  have hback := (shows_append.mp h).2
  rw [Nat.zero_add, length_append] at hback
  have hleft : Shows (collapsed a Y.length (Y.length + X.length) sum len) 0 Y := by
    intro k c hc
    have hk : k < Y.length := (List.getElem?_eq_some_iff.mp hc).1
    rw [Nat.zero_add, (collapsed_left a sum hk).1, (collapsed_left a sum hk).2]
    have hcell := hY k c hc
    rwa [Nat.zero_add] at hcell
  refine ⟨?_, hleft⟩
  intro k c hc
  rw [getElem?_take] at hc
  split at hc
  case isFalse => cases hc
  case isTrue hlen =>
    rcases lt_trichotomy k Y.length with hk | rfl | hk
    · rw [getElem?_append_left hk] at hc
      exact hleft k c hc
    · rw [getElem?_append_right (le_refl _), Nat.sub_self] at hc
      cases hc
      obtain ⟨hnum, hunit⟩ := collapsed_at a sum hlen
        (by omega : Y.length ≤ Y.length + X.length)
      rw [Nat.zero_add, hnum, hunit]
      exact ⟨rfl, (hback 0 _ rfl).2⟩
    · obtain ⟨j, rfl⟩ : ∃ j, k = Y.length + (j + 1) := ⟨k - Y.length - 1, by omega⟩
      rw [getElem?_append_right (by omega), Nat.add_sub_cancel_left] at hc
      obtain ⟨hnum, hunit⟩ := collapsed_right a sum hk hlen
        (by omega : Y.length < Y.length + X.length)
      rw [Nat.zero_add, hnum, hunit, Nat.add_sub_cancel_left]
      exact hback (j + 1) c hc

variable {n : ℕ}

/-- The loop comes to the cell in front of which a group begins. -/
theorem loop_to_group {front : List (ℤ × ℤ)} (h : Shows a 0 (front ++ (d, u) :: R))
    (hback : Descending ((d, u) :: R)) {r : ℕ} (hr : front.length = r) (hn : r + (R.length + 1) = n)
    (rec : ℕ → ℤ → Units → Option (ℤ × Units)) :
    loop (numRound rec 0) ((n : ℤ).toNat + 1) ⟨((n : ℤ) - 1).toNat, n, a⟩
      = loop (numRound rec 0) (r + 2) ⟨r, n, a⟩ := by
  have hshows := (shows_append.mp h).2
  have hfuel : (n : ℤ).toNat + 1 = (r + 2) + R.length := by omega
  have hstart : ((n : ℤ) - 1).toNat = r + R.length := by omega
  rw [hfuel, hstart]
  apply loop_passes
  intro k hk hlt
  obtain ⟨j, rfl⟩ : ∃ j, k = r + j := ⟨k - r, by omega⟩
  have hdown := hshows.pos_lt hback (k := j) (by rw [length_cons]; omega)
  rw [Nat.zero_add, hr] at hdown
  rw [Nat.zero_add, Nat.zero_add]
  exact hdown

theorem num_of_loop {l : List (ℤ × ℤ)} {depth k : ℕ} {len : ℤ} {a' : Units}
    (hloop : loop (numRound (num_ depth) 0) ((n : ℤ).toNat + 1) ⟨((n : ℤ) - 1).toNat, n, a⟩ = some (len, a'))
    (hk : len.toNat = k) (hshows : Shows a' 0 (l.take k)) (hlen : k ≤ l.length) (hnum : ∀ c ∈ l, 0 ≤ c.1)
    (hmax : total (l.take k) ≤ INT32_MAX) : num_ (depth + 1) 0 n a = some (total (l.take k), a') := by
  have hlist : len.toNat = (l.take k).length := by
    rw [hk, length_take, min_eq_left hlen]
  show (loop _ _ _).bind _ = _
  rw [hloop, Option.bind_some]
  show (sumUnits a' 0 0 len.toNat).map _ = _
  rw [hlist, sumUnits_eq _ hshows (fun c hc => hnum c (mem_of_mem_take hc)) (le_refl 0)
    (by omega), zero_add]
  rfl

/-- **A group at the beginning**, in front of a unit that is not smaller. -/
theorem num_collapse (h : Shows a 0 (X ++ (d, u) :: R)) (hne : X ≠ []) (hdesc : Descending X)
    (hless : ∀ c ∈ X, c.2 ≤ u) (hback : Descending ((d, u) :: R)) (hnum : ∀ c ∈ X ++ (d, u) :: R, 0 ≤ c.1)
    (hsum : total X + d ≤ INT32_MAX) (hmax : total ((total X + d, u) :: R) ≤ INT32_MAX)
    (hn : X.length + (R.length + 1) = n) (depth : ℕ) :
    ∃ a', num_ (depth + 2) 0 n a = some (total ((total X + d, u) :: R), a') := by
  obtain ⟨hnumX, hnumR⟩ := forall_mem_append.mp hnum
  obtain ⟨hd, hnumR⟩ := forall_mem_cons.mp hnumR
  have htotal := total_nonneg hnumX
  -- at the beginning `w` is 0, and the new length is right
  have hnew : (n : ℤ) - (0 + X.length : ℕ) - (0 : ℕ) = 1 + R.length := by omega
  have hround := numRound_collapses (Y := []) h hne hdesc hless hnumX hd (Or.inl rfl) hsum depth n
  have hloop := loop_to_group h hback rfl hn (num_ (depth + 1))
  rw [length_nil, hnew, Nat.zero_add] at hround
  rw [loop_again hround, loop_ended] at hloop
  have hshows := (shows_collapsed (Y := []) h hne (total X + d) (1 + R.length)).1
  have hk : (1 + (R.length : ℤ)).toNat = R.length + 1 := by omega
  have htake : ((total X + d, u) :: R).take (R.length + 1) = (total X + d, u) :: R :=
    take_of_length_le (le_refl _)
  rw [length_nil, Nat.zero_add, hk, nil_append] at hshows
  rw [← htake] at hmax ⊢
  exact ⟨_, num_of_loop hloop hk hshows (le_refl _)
    (forall_mem_cons.mpr ⟨add_nonneg htotal hd, hnumR⟩) hmax⟩

variable {y : ℤ × ℤ}

/-- **A group behind one cell of a greater unit**: the last two cells are lost. -/
theorem num_truncates (h : Shows a 0 ([y] ++ X ++ (d, u) :: R)) (hne : X ≠ []) (hdesc : Descending X)
    (hless : ∀ c ∈ X, c.2 ≤ u) (hgreater : u < y.2) (hback : Descending ((d, u) :: R))
    (hnum : ∀ c ∈ [y] ++ X ++ (d, u) :: R, 0 ≤ c.1) (hsum : total X + d ≤ INT32_MAX)
    (hmax : total ((y :: (total X + d, u) :: R).take R.length) ≤ INT32_MAX)
    (hn : 1 + X.length + (R.length + 1) = n) (depth : ℕ) : ∃ a', num_ (depth + 2) 0 n a
      = some (total ((y :: (total X + d, u) :: R).take R.length), a') := by
  obtain ⟨hnumX, hnumR⟩ := forall_mem_append.mp hnum
  obtain ⟨hy, hnumX⟩ := forall_mem_append.mp hnumX
  obtain ⟨hd, hnumR⟩ := forall_mem_cons.mp hnumR
  have htotal := total_nonneg hnumX
  -- `R.length + 2` cells would be left
  have hnew : (n : ℤ) - (1 + X.length : ℕ) - (1 : ℕ) = R.length := by omega
  have hstop : u < a.pos (1 - 1) := by
    have hcell := (shows_cons.mp (shows_append.mp h).1).1
    rw [hcell.2]
    exact hgreater
  have hround := numRound_collapses (Y := [y]) h hne hdesc hless hnumX hd (Or.inr hstop) hsum depth n
  have hlen : ([y] ++ X).length = 1 + X.length := by
    rw [length_append, length_singleton]
  have hloop := loop_to_group h hback hlen hn (num_ (depth + 1))
  rw [length_singleton, hnew] at hround
  rw [loop_again hround, loop_ended] at hloop
  have hshows := (shows_collapsed (Y := [y]) h hne (total X + d) R.length).1
  have hall : ∀ c ∈ y :: (total X + d, u) :: R, 0 ≤ c.1 := by
    rw [forall_mem_cons, forall_mem_cons]
    exact ⟨hy y (mem_singleton_self y), add_nonneg htotal hd, hnumR⟩
  refine ⟨_, num_of_loop hloop (Int.toNat_natCast _) hshows ?_ hall hmax⟩
  rw [length_cons, length_cons]
  omega

/-- **A group behind a group of two cells**: the last four cells are lost. -/
theorem num_truncates_group {o v : ℤ} (h : Shows a 0 ([y, (o, v)] ++ X ++ (d, u) :: R)) (hne : X ≠ [])
    (hdesc : Descending X) (hless : ∀ c ∈ X, c.2 ≤ u) (hgreater : u < v) (hyv : y.2 ≤ v)
    (hback : Descending ((d, u) :: R)) (hnum : ∀ c ∈ [y, (o, v)] ++ X ++ (d, u) :: R, 0 ≤ c.1)
    (hsum : total X + d ≤ INT32_MAX) (hsum' : total [y] + o ≤ INT32_MAX)
    (hmax : total (((total [y] + o, v) :: (total X + d, u) :: R).take (R.length - 2)) ≤ INT32_MAX)
    (hn : 2 + X.length + (R.length + 1) = n) (depth : ℕ) : ∃ a', num_ (depth + 2) 0 n a = some
      (total (((total [y] + o, v) :: (total X + d, u) :: R).take (R.length - 2)), a') := by
  obtain ⟨hnumX, hnumR⟩ := forall_mem_append.mp hnum
  obtain ⟨hnumY, hnumX⟩ := forall_mem_append.mp hnumX
  obtain ⟨hd, hnumR⟩ := forall_mem_cons.mp hnumR
  obtain ⟨hy, hnumY⟩ := forall_mem_cons.mp hnumY
  have ho : 0 ≤ o := hnumY _ (mem_singleton_self _)
  have hnumy : ∀ c ∈ [y], 0 ≤ c.1 := forall_mem_singleton.mpr hy
  have htotal := total_nonneg hnumX
  -- `R.length + 3` cells would be left; without cells in `R` the new length is negative
  have hnew : (n : ℤ) - (2 + X.length : ℕ) - (2 : ℕ) = R.length - 1 := by omega
  have hstop : u < a.pos (2 - 1) := by
    have hcell := (shows_cons.mp (shows_cons.mp (shows_append.mp (shows_append.mp h).1).1).2).1
    rw [hcell.2]
    exact hgreater
  have hround := numRound_collapses (Y := [y, (o, v)]) h hne hdesc hless hnumX hd (Or.inr hstop)
    hsum depth n
  have hlen : ([y, (o, v)] ++ X).length = 2 + X.length := by
    rw [length_append]
    rfl
  have hloop := loop_to_group h hback hlen hn (num_ (depth + 1))
  rw [show [y, (o, v)].length = 2 from rfl, hnew] at hround
  rw [loop_again hround] at hloop
  obtain ⟨hshows, hfront⟩ := shows_collapsed (Y := [y, (o, v)]) h hne (total X + d) (R.length - 1)
  rw [show [y, (o, v)].length = 2 from rfl] at hshows hfront
  obtain ⟨r, hr⟩ : ∃ r, 2 + X.length = r + 1 := ⟨1 + X.length, by omega⟩
  rw [hr] at hloop hshows hfront
  -- the first group is still there, and behind it what the new length has left
  have hnext : Shows (collapsed a 2 (r + 1) (total X + d) (R.length - 1)) 0
      ([] ++ [y] ++ (o, v) :: ((total X + d, u) :: R).take (R.length - 3)) := by
    by_cases hR : R.length < 3
    · rw [Nat.sub_eq_zero_of_le (by omega), take_zero]
      exact hfront
    · have htwo : ((R.length : ℤ) - 1).toNat = (R.length - 3) + 1 + 1 := by omega
      rw [htwo] at hshows
      exact hshows
  have hround' := numRound_collapses (Y := []) hnext (cons_ne_nil _ _)
    (pairwise_singleton _ _) (forall_mem_singleton.mpr hyv) hnumy ho (Or.inl rfl) hsum'
    depth (R.length - 1)
  have hnew' : (R.length : ℤ) - 1 - (0 + 1 : ℕ) - (0 : ℕ) = R.length - 2 := by omega
  rw [length_nil, length_singleton, hnew'] at hround'
  rw [show 2 - 1 = 0 + 1 from rfl, loop_again hround', loop_ended] at hloop
  have hshows' := (shows_collapsed (Y := []) hnext (cons_ne_nil _ _) (total [y] + o)
    (R.length - 2)).1
  have htake : ([] ++ (total [y] + o, v) :: ((total X + d, u) :: R).take (R.length - 3)).take
      ((R.length : ℤ) - 2).toNat
        = ((total [y] + o, v) :: (total X + d, u) :: R).take (R.length - 2) := by
    by_cases hR : R.length < 3
    · rw [show ((R.length : ℤ) - 2).toNat = 0 by omega, show R.length - 2 = 0 by omega]
      rfl
    · rw [show ((R.length : ℤ) - 2).toNat = (R.length - 3) + 1 by omega,
        show R.length - 2 = (R.length - 3) + 1 by omega, nil_append, take_succ_cons,
        take_succ_cons, take_take, min_self]
  rw [htake, length_nil, length_singleton] at hshows'
  have hall : ∀ c ∈ (total [y] + o, v) :: (total X + d, u) :: R, 0 ≤ c.1 := by
    rw [forall_mem_cons, forall_mem_cons]
    exact ⟨add_nonneg (total_nonneg hnumy) ho, add_nonneg htotal hd, hnumR⟩
  refine ⟨_, num_of_loop hloop (by omega) hshows' ?_ hall hmax⟩
  rw [length_cons, length_cons]
  omega

end Collapse

end QToNum

end KalavaPir.Common
