/-
  KalavaPir.Common.QSplit — cutting a string at a separator, `common/qfunc.h`.

  One function stores the bounds of the pieces in an array of `int32_t`, the other
  one overwrites the separators with NULs and stores pointers.  Strings come with
  their lengths and are lists of bytes; pointers into them are distances.  The tests
  for NULL are left out.
-/
import KalavaPir.Common.Int32
import KalavaPir.Common.QStrRep
import KalavaPir.Framework.Cutting
import Mathlib.Data.List.TakeWhile

namespace KalavaPir.Common

open KalavaPir.Framework List

/-! ## §1. The functions. -/

/-- The variables of `Q_FOREVER`. -/
structure SplitState where
  p1 : ℕ
  n : ℕ
  pos : ℕ → ℤ

/-- `pos[i]=v` in an array of `pos_size` numbers. -/
def setPos (pos_size : ℤ) (pos : ℕ → ℤ) (i : ℕ) (v : ℤ) : Option (ℕ → ℤ) :=
  if (i : ℤ) < pos_size then some (fun k => if k = i then v else pos k) else none

/-- `pos[2*n]=p1-src; pos[2*n+1]=…;` -/
def setPiece (pos_size : ℤ) (s : SplitState) (stop : ℕ) : Option (ℕ → ℤ) :=
  (setPos pos_size s.pos (2 * s.n) s.p1).bind fun pos => setPos pos_size pos (2 * s.n + 1) stop

/-- The body of `Q_FOREVER { … }`. -/
def splitRound (src sep : List UInt8) (pos_size : ℤ) (s : SplitState) :
    Option (LoopStep SplitState (ℤ × (ℕ → ℤ))) :=
  let p2 := q_strstr (src.drop s.p1) sep
  (int32 ((s.n + 1) * 2)).bind fun room =>
    if room > pos_size then some (.done (-1, s.pos))
    else
      match p2 with
      | some p =>
        (setPiece pos_size s (s.p1 + p)).bind fun pos =>
          some (.again { p1 := s.p1 + p + sep.length, n := s.n + 1, pos := pos })
      | none =>
        (setPiece pos_size s src.length).bind fun pos => some (.done (s.n + 1, pos))

/-- qfunc.h:403, with as many rounds as there can be. -/
def q_split_pos (src sep : List UInt8) (pos : ℕ → ℤ) (pos_size : ℤ) : Option (ℤ × (ℕ → ℤ)) :=
  if src.length = 0 ∨ sep.length = 0 then some (0, pos)
  else loop (splitRound src sep pos_size) (src.length + 1) { p1 := 0, n := 0, pos := pos }

/-- `::strstr` of two strings without their NULs. -/
def strstr (needle : List UInt8) : List UInt8 → Option ℕ
  | [] => if needle = [] then some 0 else none
  | c :: cs => if needle <+: c :: cs then some 0 else (strstr needle cs).map (· + 1)

/-- The string that a pointer into a buffer sees. -/
def stringAt (buf : List UInt8) (p : ℕ) : List UInt8 := (buf.drop p).takeWhile (· != 0)

/-- `memset(buf+p, 0, n)`. -/
def memset0 (buf : List UInt8) (p n : ℕ) : List UInt8 :=
  buf.take p ++ List.replicate n 0 ++ buf.drop (p + n)

/-- The variables of `Q_FOREVER`, the string and the pointers that are stored. -/
structure CutState where
  p1 : ℕ
  n : ℤ
  buf : List UInt8
  dest : List ℕ

/-- The body of `Q_FOREVER { … }`. -/
def cutRound (sep : List UInt8) (seplen : ℕ) (s : CutState) : Option (LoopStep CutState CutState) :=
  match strstr (stringAt sep 0) (stringAt s.buf s.p1) with
  | some p =>
    (int32 (s.n + 1)).bind fun n =>
      some (.again { p1 := s.p1 + p + seplen, n := n, buf := memset0 s.buf (s.p1 + p) seplen,
                     dest := s.dest ++ [s.p1] })
  | none => (int32 (s.n + 1)).bind fun n => some (.done { s with n := n, dest := s.dest ++ [s.p1] })

/-- qfunc.h:431, with as many rounds as there can be.  `buf` holds the string and
    whatever is behind it. -/
def q_split_dest (buf : List UInt8) (srclen : ℕ) (sep : List UInt8) : Option CutState :=
  if srclen = 0 ∨ sep.length = 0 then some { p1 := 0, n := 0, buf := buf, dest := [] }
  else loop (cutRound sep sep.length) (srclen + 1) { p1 := 0, n := 0, buf := buf, dest := [] }

/-! ## §2. The bounds. -/

section Bounds

variable {src sep : List UInt8} {pos_size : ℤ} {s : SplitState} {ps : List (List UInt8)}

/-- The piece between two numbers of the array. -/
def pieceAt (src : List UInt8) (pos : ℕ → ℤ) (i : ℕ) : List UInt8 :=
  (src.drop (pos (2 * i)).toNat).take (pos (2 * i + 1) - pos (2 * i)).toNat

/-- The first `n` of them. -/
def slices (src : List UInt8) (pos : ℕ → ℤ) (n : ℕ) : List (List UInt8) :=
  (List.range n).map (pieceAt src pos)

/-- **The invariant**: the bounds of `ps` have been stored, and the rest of the
    string makes up the other pieces. -/
structure SplitAt (src sep : List UInt8) (pos_size : ℤ) (s : SplitState) (ps : List (List UInt8)) : Prop where
  p1_le : s.p1 ≤ src.length
  n_eq : s.n = ps.length
  stored : slices src s.pos s.n = ps
  rest : pieces sep src = ps ++ pieces sep (src.drop s.p1)
  room : 2 * (s.n : ℤ) ≤ pos_size ∨ s.n = 0

/-- One more piece is stored where there is room for it. -/
theorem setPiece_eq (hroom : ((s.n : ℤ) + 1) * 2 ≤ pos_size) (stop : ℕ) :
    ∃ pos, setPiece pos_size s stop = some pos ∧ slices src pos (s.n + 1) =
      slices src s.pos s.n ++ [(src.drop s.p1).take (stop - s.p1)] := by
  unfold setPiece setPos
  rw [if_pos (by omega), Option.bind_some, if_pos (by omega)]
  refine ⟨_, rfl, ?_⟩
  unfold slices
  rw [range_succ, map_append]
  congr 1
  · -- the earlier numbers are where they were
    apply map_congr_left
    intro i hi
    have hlt := mem_range.mp hi
    unfold pieceAt
    dsimp only
    rw [if_neg (by omega), if_neg (by omega), if_neg (by omega), if_neg (by omega)]
  · show [pieceAt _ _ s.n] = _
    unfold pieceAt
    dsimp only
    rw [if_pos rfl, if_neg (show ¬ 2 * s.n = 2 * s.n + 1 by omega), if_pos rfl, Int.toNat_natCast]
    congr 2
    omega

/-- What the loop returns: there is room for all pieces, or not. -/
def Bounded (src sep : List UInt8) (pos_size : ℤ) (r : ℤ × (ℕ → ℤ)) : Prop :=
  (2 * ((pieces sep src).length : ℤ) ≤ pos_size ∧ r.1 = (pieces sep src).length ∧
    slices src r.2 (pieces sep src).length = pieces sep src) ∨
  (pos_size < 2 * ((pieces sep src).length : ℤ) ∧ r.1 = -1)

/-- **A ROUND** stores the next piece, ends the loop, or overflows. -/
theorem SplitAt.round (hsep : sep ≠ []) (h : SplitAt src sep pos_size s ps) :
    (INT32_MAX < ((s.n : ℤ) + 1) * 2 ∧ splitRound src sep pos_size s = none) ∨
    (∃ s', splitRound src sep pos_size s = some (.again s') ∧
      (∃ ps', SplitAt src sep pos_size s' ps') ∧ src.length - s'.p1 < src.length - s.p1) ∨
    ∃ r, splitRound src sep pos_size s = some (.done r) ∧ Bounded src sep pos_size r ∧
      ((s.n : ℤ) + 1) * 2 ≤ INT32_MAX ∧
      (pos_size < ((s.n : ℤ) + 1) * 2 ∨ (pieces sep src).length = s.n + 1) := by
  have hpos := length_pos_of_ne_nil hsep
  have hrest := h.rest
  have hcount := h.n_eq
  unfold splitRound
  by_cases hbig : INT32_MAX < ((s.n : ℤ) + 1) * 2
  · rw [int32_of_gt hbig]
    exact Or.inl ⟨hbig, rfl⟩
  rw [int32_of_le (by omega) (not_lt.mp hbig), Option.bind_some]
  apply Or.inr
  by_cases hroom : ((s.n : ℤ) + 1) * 2 > pos_size
  · have hmore := length_lt_pieces hsep hrest
    rw [if_pos hroom]
    refine Or.inr ⟨_, rfl, Or.inr ⟨?_, rfl⟩, not_lt.mp hbig, Or.inl hroom⟩
    omega
  rw [if_neg hroom]
  obtain ⟨p, hp, hfirst⟩ | ⟨hnone, hno⟩ := q_strstr_cases (src.drop s.p1) hsep
  · -- a separator `p` bytes further on
    have hle := length_of_prefix_drop hfirst.occurs
    rw [length_drop] at hle
    obtain ⟨pos, hset, hslices⟩ := @setPiece_eq src pos_size s (not_lt.mp hroom) (s.p1 + p)
    rw [hp]
    dsimp only
    rw [hset, Option.bind_some]
    refine Or.inl ⟨_, rfl, ⟨ps ++ [(src.drop s.p1).take p], ?_⟩, ?_⟩
    · refine ⟨?_, ?_, ?_, ?_, ?_⟩
      · show s.p1 + p + sep.length ≤ src.length
        omega
      · show s.n + 1 = _
        rw [length_append, hcount]
        rfl
      · show slices src pos (s.n + 1) = _
        rw [hslices, h.stored, Nat.add_sub_cancel_left]
      · exact pieces_next hsep hrest hfirst
      · show 2 * ((s.n + 1 : ℕ) : ℤ) ≤ pos_size ∨ _
        omega
    · show src.length - (s.p1 + p + sep.length) < src.length - s.p1
      omega
  · -- the last piece
    obtain ⟨pos, hset, hslices⟩ := @setPiece_eq src pos_size s (not_lt.mp hroom) src.length
    rw [hnone]
    rw [hset, Option.bind_some]
    have hlast := pieces_last hsep hrest hno
    have hall : (src.drop s.p1).take (src.length - s.p1) = src.drop s.p1 := by
      rw [take_of_length_le]
      rw [length_drop]
    have hlength : (pieces sep src).length = s.n + 1 := by
      rw [hlast, length_append, hcount]
      rfl
    refine Or.inr ⟨_, rfl, Or.inl ⟨?_, ?_, ?_⟩, not_lt.mp hbig, Or.inr hlength⟩
    · omega
    · rw [hlength]
      rfl
    · rw [hlength, hslices, h.stored, hall, hlast]

/-- The check of the room overflows on the way to the last piece. -/
def RoomOverflows (src sep : List UInt8) (pos_size : ℤ) : Prop :=
  2 ^ 30 ≤ (pieces sep src).length ∧ 2 ^ 31 - 2 ≤ pos_size

theorem splitAt_start (src sep : List UInt8) (pos : ℕ → ℤ) (pos_size : ℤ) :
    SplitAt src sep pos_size { p1 := 0, n := 0, pos := pos } [] :=
  ⟨Nat.zero_le _, rfl, rfl, rfl, Or.inr rfl⟩

theorem SplitAt.n_lt (hsep : sep ≠ []) (h : SplitAt src sep pos_size s ps) :
    s.n < (pieces sep src).length := by
  rw [h.n_eq]
  exact length_lt_pieces hsep h.rest

/-- **THE BOUNDS OF THE PIECES** are stored if there is room for them, and the answer
    is -1 if there is not, unless the check of the room overflows. -/
theorem q_split_pos_spec (hsrc : src ≠ []) (hsep : sep ≠ []) (pos : ℕ → ℤ) (pos_size : ℤ) :
    (RoomOverflows src sep pos_size → q_split_pos src sep pos pos_size = none) ∧
    (¬ RoomOverflows src sep pos_size →
      ∃ r, q_split_pos src sep pos pos_size = some r ∧ Bounded src sep pos_size r) := by
  have hlen := length_pos_of_ne_nil hsrc
  have hseplen := length_pos_of_ne_nil hsep
  have hmax : INT32_MAX = 2 ^ 31 - 1 := rfl
  unfold q_split_pos RoomOverflows
  rw [if_neg (by omega)]
  constructor
  · rintro ⟨hmany, hlarge⟩
    refine loop_fails_or_goes (I := fun s => ∃ ps, SplitAt src sep pos_size s ps) ?_ _
      ⟨[], splitAt_start src sep pos pos_size⟩
    rintro s ⟨ps, hs⟩
    rcases hs.round hsep with ⟨-, hnone⟩ | ⟨s', hbody, hs', -⟩ | ⟨r, -, -, hsmall, hlast | hlast⟩
    · exact Or.inl hnone
    · exact Or.inr ⟨s', hbody, hs'⟩
    · omega
    · omega
  · intro hok
    refine loop_ends (I := fun s => ∃ ps, SplitAt src sep pos_size s ps)
      (fun s => src.length - s.p1) ?_ _ ⟨[], splitAt_start src sep pos pos_size⟩ ?_
    · rintro s ⟨ps, hs⟩
      rcases hs.round hsep with ⟨hbig, -⟩ | ⟨s', hbody, hs', hless⟩ | ⟨r, hbody, hr, -⟩
      · exfalso
        have hn := hs.n_lt hsep
        have hroom := hs.room
        exact hok ⟨by omega, by omega⟩
      · exact Or.inl ⟨s', hbody, hs', hless⟩
      · exact Or.inr ⟨r, hbody, hr⟩
    · show src.length - 0 < src.length + 1
      omega

end Bounds

/-! ## §3. The pointers. -/

section Pointers

variable {src sep buf behind : List UInt8} {s : CutState} {ps : List (List UInt8)}

/-- **`strstr`** finds the first occurrence, or there is none. -/
theorem strstr_cases (hsep : sep ≠ []) (hay : List UInt8) :
    (∃ p, strstr sep hay = some p ∧ FirstAt sep hay p) ∨
      strstr sep hay = none ∧ ∀ q, ¬ sep <+: hay.drop q := by
  induction hay with
  | nil =>
    refine Or.inr ⟨if_neg hsep, fun q hq => ?_⟩
    rw [drop_nil] at hq
    exact hsep (prefix_nil.mp hq)
  | cons c cs ih =>
    rw [strstr]
    by_cases hhere : sep <+: c :: cs
    · rw [if_pos hhere]
      exact Or.inl ⟨0, rfl, hhere, fun q hq => absurd hq (Nat.not_lt_zero q)⟩
    rw [if_neg hhere]
    rcases ih with ⟨p, hp, hoccurs, hfirst⟩ | ⟨hnone, hno⟩
    · refine Or.inl ⟨p + 1, by rw [hp]; rfl, hoccurs, fun q hq => ?_⟩
      cases q with
      | zero => exact hhere
      | succ q => exact hfirst q (Nat.lt_of_succ_lt_succ hq)
    refine Or.inr ⟨by rw [hnone]; rfl, fun q => ?_⟩
    cases q with
    | zero => exact hhere
    | succ q => exact hno q

variable {str front : List UInt8}

theorem stringAt_zero (hstr : 0 ∉ str) : stringAt str 0 = str := by
  unfold stringAt
  rw [drop_zero, takeWhile_eq_self_iff]
  intro c hc
  rw [bne_iff_ne]
  rintro rfl
  exact hstr hc

theorem stringAt_append (hstr : 0 ∉ str) (rest : List UInt8) :
    stringAt (front ++ str ++ 0 :: rest) front.length = str := by
  have hall : ∀ c ∈ str, (c != 0) = true := takeWhile_eq_self_iff.mp (stringAt_zero hstr)
  unfold stringAt
  rw [append_assoc, drop_left, takeWhile_append_of_pos hall,
    takeWhile_cons_of_neg (by decide), append_nil]

theorem memset0_append {d back : List UInt8} {p k : ℕ} (hfit : p + k ≤ d.length) :
    memset0 (front ++ d ++ back) (front.length + p) k =
      (front ++ (d.take p ++ List.replicate k 0)) ++ d.drop (p + k) ++ back := by
  have htake : (front ++ d ++ back).take (front.length + p) = front ++ d.take p := by
    rw [append_assoc, take_append, take_of_length_le (Nat.le_add_right _ p),
      Nat.add_sub_cancel_left, take_append_of_le_length (by omega)]
  have hdrop : (front ++ d ++ back).drop (front.length + p + k) = d.drop (p + k) ++ back := by
    rw [append_assoc, Nat.add_assoc, drop_append, drop_of_length_le (Nat.le_add_right _ _),
      Nat.add_sub_cancel_left, drop_append_of_le_length hfit, nil_append]
  unfold memset0
  rw [htake, hdrop, ← append_assoc front, ← append_assoc]

/-- **The invariant**: behind `front`, in which the pointers lead to the pieces `ps`,
    the string is as it was. -/
structure CutAt (src sep behind : List UInt8) (s : CutState) (ps : List (List UInt8)) : Prop where
  buf_eq : ∃ front, s.buf = front ++ src.drop s.p1 ++ 0 :: behind ∧ front.length = s.p1 ∧
    ∀ rest, s.dest.map (stringAt (front ++ rest)) = ps
  p1_le : s.p1 ≤ src.length
  n_eq : s.n = ps.length
  rest : pieces sep src = ps ++ pieces sep (src.drop s.p1)

/-- All pieces, in their order. -/
def Led (src sep : List UInt8) (r : CutState) : Prop :=
  r.n = (pieces sep src).length ∧ r.dest.map (stringAt r.buf) = pieces sep src

/-- **A ROUND** cuts off the next piece, ends the loop, or overflows. -/
theorem CutAt.round (hsep : sep ≠ []) (hsep' : 0 ∉ sep) (hfree : 0 ∉ src) (h : CutAt src sep behind s ps) :
    (INT32_MAX < s.n + 1 ∧ cutRound sep sep.length s = none) ∨
    (∃ s', cutRound sep sep.length s = some (.again s') ∧ (∃ ps', CutAt src sep behind s' ps') ∧
      src.length - s'.p1 < src.length - s.p1) ∨
    ∃ r, cutRound sep sep.length s = some (.done r) ∧ Led src sep r ∧ s.n + 1 ≤ INT32_MAX ∧
      ((pieces sep src).length : ℤ) = s.n + 1 := by
  obtain ⟨front, hbuf, hfront, hled⟩ := h.buf_eq
  have hpos := length_pos_of_ne_nil hsep
  have hrest := h.rest
  have hcount := h.n_eq
  have hfree' : 0 ∉ src.drop s.p1 := fun hmem => hfree (mem_of_mem_drop hmem)
  have hstring : stringAt s.buf s.p1 = src.drop s.p1 := by
    rw [hbuf, ← hfront]
    exact stringAt_append (by rw [hfront]; exact hfree') behind
  unfold cutRound
  rw [hstring, stringAt_zero hsep']
  obtain ⟨p, hp, hfirst⟩ | ⟨hnone, hno⟩ := strstr_cases hsep (src.drop s.p1)
  · rw [hp]
    by_cases hbig : INT32_MAX < s.n + 1
    · rw [int32_of_gt hbig]
      exact Or.inl ⟨hbig, rfl⟩
    rw [int32_of_le (by omega) (not_lt.mp hbig), Option.bind_some]
    have hle := length_of_prefix_drop hfirst.occurs
    rw [length_drop] at hle
    refine Or.inr (Or.inl ⟨_, rfl, ⟨ps ++ [(src.drop s.p1).take p], ?_⟩, ?_⟩)
    · have hnul : 0 ∉ (src.drop s.p1).take p := fun hmem => hfree' (mem_of_mem_take hmem)
      obtain ⟨k, hk⟩ : ∃ k, sep.length = k + 1 := ⟨sep.length - 1, by omega⟩
      refine ⟨⟨front ++ ((src.drop s.p1).take p ++ List.replicate sep.length 0), ?_, ?_, ?_⟩, ?_, ?_, ?_⟩
      · show memset0 s.buf (s.p1 + p) sep.length = _
        rw [hbuf, ← hfront, memset0_append (by rw [length_drop]; omega), drop_drop,
          ← Nat.add_assoc]
      · show _ = s.p1 + p + sep.length
        rw [length_append, length_append, length_take, length_drop,
          length_replicate, hfront]
        omega
      · -- the new pointer leads to bytes in front of the first NUL of the separator
        intro rest
        show (s.dest ++ [s.p1]).map _ = _
        rw [map_append, map_singleton, append_assoc, hled, ← hfront, hk,
          replicate_succ, append_assoc, cons_append, ← append_assoc, hfront]
        congr 2
        rw [← hfront]
        exact stringAt_append (by rw [hfront]; exact hnul) _
      · show s.p1 + p + sep.length ≤ src.length
        omega
      · show s.n + 1 = _
        rw [length_append, hcount]
        rfl
      · exact pieces_next hsep hrest hfirst
    · show src.length - (s.p1 + p + sep.length) < src.length - s.p1
      omega
  · rw [hnone]
    by_cases hbig : INT32_MAX < s.n + 1
    · rw [int32_of_gt hbig]
      exact Or.inl ⟨hbig, rfl⟩
    rw [int32_of_le (by omega) (not_lt.mp hbig), Option.bind_some]
    have hlast := pieces_last hsep hrest hno
    have hlength : ((pieces sep src).length : ℤ) = s.n + 1 := by
      rw [hlast, length_append, hcount]
      rfl
    refine Or.inr (Or.inr ⟨_, rfl, ⟨hlength.symm, ?_⟩, not_lt.mp hbig, hlength⟩)
    show (s.dest ++ [s.p1]).map (stringAt s.buf) = _
    rw [map_append, map_singleton, hstring, hlast, hbuf, append_assoc, hled]

theorem cutAt_start (src sep behind : List UInt8) :
    CutAt src sep behind { p1 := 0, n := 0, buf := src ++ 0 :: behind, dest := [] } [] :=
  ⟨⟨[], rfl, rfl, fun _ => rfl⟩, Nat.zero_le _, rfl, rfl⟩

theorem CutAt.n_lt (hsep : sep ≠ []) (h : CutAt src sep behind s ps) : s.n < (pieces sep src).length := by
  rw [h.n_eq]
  exact_mod_cast length_lt_pieces hsep h.rest

/-- **THE POINTERS LEAD TO THE PIECES**, unless their number overflows. -/
theorem q_split_dest_spec (hsrc : src ≠ []) (hsep : sep ≠ []) (hfree : 0 ∉ src) (hsep' : 0 ∉ sep)
    (behind : List UInt8) :
    (2 ^ 31 ≤ (pieces sep src).length → q_split_dest (src ++ 0 :: behind) src.length sep = none) ∧
    ((pieces sep src).length < 2 ^ 31 →
      ∃ r, q_split_dest (src ++ 0 :: behind) src.length sep = some r ∧ Led src sep r) := by
  have hlen := length_pos_of_ne_nil hsrc
  have hseplen := length_pos_of_ne_nil hsep
  have hmax : INT32_MAX = 2 ^ 31 - 1 := rfl
  unfold q_split_dest
  rw [if_neg (by omega)]
  constructor
  · intro hmany
    refine loop_fails_or_goes (I := fun s => ∃ ps, CutAt src sep behind s ps) ?_ _
      ⟨[], cutAt_start src sep behind⟩
    rintro s ⟨ps, hs⟩
    rcases hs.round hsep hsep' hfree with ⟨-, hnone⟩ | ⟨s', hbody, hs', -⟩ | ⟨r, -, -, hsmall, hlast⟩
    · exact Or.inl hnone
    · exact Or.inr ⟨s', hbody, hs'⟩
    · omega
  · intro hok
    refine loop_ends (I := fun s => ∃ ps, CutAt src sep behind s ps)
      (fun s => src.length - s.p1) ?_ _ ⟨[], cutAt_start src sep behind⟩ ?_
    · rintro s ⟨ps, hs⟩
      rcases hs.round hsep hsep' hfree with ⟨hbig, -⟩ | ⟨s', hbody, hs', hless⟩ | ⟨r, hbody, hr, -⟩
      · have hn := hs.n_lt hsep
        omega
      · exact Or.inl ⟨s', hbody, hs', hless⟩
      · exact Or.inr ⟨r, hbody, hr⟩
    · show src.length - 0 < src.length + 1
      omega

end Pointers

/-! ## §4. Both functions. -/

theorem tdiv_two_lt_iff {n : ℕ} (hn : 0 < n) (pos_size : ℤ) :
    pos_size.tdiv 2 < n ↔ pos_size < 2 * (n : ℤ) := by
  by_cases hsize : 0 ≤ pos_size
  · rw [Int.tdiv_eq_ediv_of_nonneg hsize]
    omega
  -- there is no room, and the quotient is not positive
  have hneg := Int.tdiv_nonneg (show 0 ≤ -pos_size by omega) (show (0 : ℤ) ≤ 2 by decide)
  rw [Int.neg_tdiv] at hneg
  exact ⟨fun _ => by omega, fun _ => by omega⟩

/-- There are pieces that joined give the string, that do not contain the separator,
    and to which both functions lead: the one as far as there is room for their bounds. -/
def SplitMeets (src sep : List UInt8) (pos : ℕ → ℤ) (pos_size : ℤ) (behind : List UInt8) : Prop :=
  ∃ ps : List (List UInt8), sep.intercalate ps = src ∧ (∀ x ∈ ps, ¬ sep <:+: x) ∧
    (∃ r, q_split_pos src sep pos pos_size = some r ∧ (r.1 = -1 ↔ pos_size.tdiv 2 < ps.length) ∧
      (¬ pos_size.tdiv 2 < ps.length → r.1 = ps.length ∧ slices src r.2 ps.length = ps)) ∧
    ∃ r, q_split_dest (src ++ 0 :: behind) src.length sep = some r ∧ r.n = ps.length ∧
      r.dest.map (stringAt r.buf) = ps

/-- **WHEN BOTH DO WHAT THEY SHOULD**: there are fewer than `2^31` pieces, and fewer than
    `2^30` unless the array is at least two numbers shorter than `2^31`. -/
theorem q_split_meets_iff {src sep : List UInt8} (hsrc : src ≠ []) (hsep : sep ≠ []) (hfree : 0 ∉ src)
    (hsep' : 0 ∉ sep) (pos : ℕ → ℤ) (pos_size : ℤ) (behind : List UInt8) :
    SplitMeets src sep pos pos_size behind ↔
      (pieces sep src).length < 2 ^ 31 ∧ ¬ RoomOverflows src sep pos_size := by
  have hpos := q_split_pos_spec hsrc hsep pos pos_size
  have hdest := q_split_dest_spec hsrc hsep hfree hsep' behind
  constructor
  · rintro ⟨ps, -, -, ⟨r, hrun, -⟩, ⟨r', hrun', -⟩⟩
    constructor
    · by_contra hmany
      rw [hdest.1 (not_lt.mp hmany)] at hrun'
      cases hrun'
    · intro hover
      rw [hpos.1 hover] at hrun
      cases hrun
  · rintro ⟨hfew, hok⟩
    obtain ⟨r, hrun, hbounded⟩ := hpos.2 hok
    obtain ⟨r', hrun', hn, hled⟩ := hdest.2 hfew
    refine ⟨pieces sep src, intercalate_pieces hsep src, not_infix_of_mem_pieces hsep src,
      ⟨r, hrun, ?_⟩, r', hrun', hn, hled⟩
    have hsome : 0 < (pieces sep src).length := by
      obtain ⟨x, xs, hpieces, -⟩ := exists_pieces hsep src
      rw [hpieces]
      exact Nat.succ_pos _
    rw [tdiv_two_lt_iff hsome]
    rcases hbounded with ⟨hroom, hret, hslices⟩ | ⟨hnone, hret⟩
    · refine ⟨⟨fun hneg => by omega, fun hless => by omega⟩, fun _ => ⟨hret, hslices⟩⟩
    · exact ⟨⟨fun _ => hnone, fun _ => hret⟩, fun hnot => absurd hnone hnot⟩

/-- A separator in front, two in a row and one at the end, and bytes behind the NUL. -/
theorem q_split_meets_commas : SplitMeets [44, 97, 44, 44, 98, 44] [44] (fun _ => 7) 10 [44, 99] :=
  (q_split_meets_iff (by decide) (by decide) (by decide) (by decide) (fun _ => 7) 10
    [44, 99]).mpr
    ⟨by simp [pieces], fun h => absurd h.2 (by decide)⟩

/-- **`2^30` pieces** and the largest array: the check of the room overflows. -/
theorem q_split_overflow : ¬ ∀ (src sep : List UInt8) (pos : ℕ → ℤ) (pos_size : ℤ) (behind : List UInt8),
    src ≠ [] → sep ≠ [] → 0 ∉ src → 0 ∉ sep → (src.length : ℤ) ≤ INT32_MAX → IsInt32 pos_size →
    SplitMeets src sep pos pos_size behind := by
  intro h
  have hsome : List.replicate (2 ^ 30 - 1) (44 : UInt8) ≠ [] := by
    rw [ne_eq, List.replicate_eq_nil_iff]
    decide
  have hfree : (0 : UInt8) ∉ List.replicate (2 ^ 30 - 1) 44 := fun hmem =>
    absurd (List.eq_of_mem_replicate hmem) (by decide)
  obtain ⟨ps, -, -, ⟨r, hrun, -⟩, -⟩ := h _ [44] (fun _ => 0) (2 ^ 31 - 1) [] hsome (by decide) hfree
    (by decide) (by rw [List.length_replicate]; decide) (by decide)
  have hover : RoomOverflows (List.replicate (2 ^ 30 - 1) 44) [44] (2 ^ 31 - 1) := by
    refine ⟨?_, by decide⟩
    rw [pieces_replicate, List.length_replicate]
    decide
  have hnone := (q_split_pos_spec hsome (List.cons_ne_nil 44 []) (fun _ => 0) (2 ^ 31 - 1)).1 hover
  rw [hnone] at hrun
  cases hrun

end KalavaPir.Common
