/-
  KalavaPir.Common.QUrlCode — the encoding of URLs, `common/qfunc.h`.

  Strings come with their lengths and are lists of bytes; `char` is signed.
  `dest` is what the pointer to the target sees.  Positions are `int32_t`: the
  test for the room of an escape computes `j+3`, which overflows when the target
  has 2³¹−2 bytes or more and all but the last two of them are in use.
-/
import KalavaPir.Framework.Memory
import KalavaPir.Common.Int32
import Mathlib.Data.List.Flatten

namespace KalavaPir.Common.UrlCode

open KalavaPir.Framework List

/-! ## §1. The functions. -/

/-- What ends a call without a result. -/
inductive Fault
  | overflow
  | outsideDest
  deriving DecidableEq

/-- The value of a `char`. -/
def charOf (b : UInt8) : ℤ := b.toInt8.toInt

/-- `ch>=lo&&ch<=hi` -/
def between (b : UInt8) (lo hi : Char) : Prop := (lo.toNat : ℤ) ≤ charOf b ∧ charOf b ≤ hi.toNat

instance (b : UInt8) (lo hi : Char) : Decidable (between b lo hi) := inferInstanceAs (Decidable (_ ∧ _))

/-- `ch==c` -/
def isChar (b : UInt8) (c : Char) : Prop := charOf b = c.toNat

instance (b : UInt8) (c : Char) : Decidable (isChar b c) := inferInstanceAs (Decidable (_ = _))

/-- The byte of a character. -/
def byteOf (c : Char) : UInt8 := UInt8.ofNat c.toNat

/-- `pszDest[j]=…;` for some bytes in a row. -/
def storeAt (iMaxSize : ℤ) (dest : Memory) (j : ℕ) (bs : List UInt8) : Except Fault Memory :=
  if ((j + bs.length : ℕ) : ℤ) ≤ iMaxSize then .ok (dest.write j bs) else .error .outsideDest

/-- What both loops end with. -/
def finish (iMaxSize : ℤ) (j : ℕ) (dest : Memory) : Except Fault (ℤ × Memory) :=
  if (j : ℤ) = iMaxSize then .ok (-1, dest)
  else do
    let dest ← storeAt iMaxSize dest j [0]
    .ok (j, dest)

/-- A digit of `%02X`. -/
def hexDigit (n : ℕ) : UInt8 := if n < 10 then UInt8.ofNat (48 + n) else UInt8.ofNat (55 + n)

/-- What `"%%%02X"` prints. -/
def escape (b : UInt8) : List UInt8 := [byteOf '%', hexDigit (b.toNat / 16), hexDigit (b.toNat % 16)]

/-- Letters and digits stay as they are. -/
def isAlnum (b : UInt8) : Prop := between b 'A' 'Z' ∨ between b 'a' 'z' ∨ between b '0' '9'

instance (b : UInt8) : Decidable (isAlnum b) := inferInstanceAs (Decidable (_ ∨ _ ∨ _))

/-- Four marks stay as they are. -/
def isMark (b : UInt8) : Prop := isChar b '.' ∨ isChar b '-' ∨ isChar b '_' ∨ isChar b '*'

instance (b : UInt8) : Decidable (isMark b) := inferInstanceAs (Decidable (_ ∨ _ ∨ _ ∨ _))

/-- `for(i=0, j=0; (i<iSrcLen)&&(j<iMaxSize); ++i)` of the encoder. -/
def encodeLoop (iMaxSize : ℤ) : List UInt8 → ℕ → Memory → Except Fault (ℤ × Memory)
  | [], j, dest => finish iMaxSize j dest
  | ch :: rest, j, dest =>
    if (j : ℤ) < iMaxSize then
      if isAlnum ch then do
        let dest ← storeAt iMaxSize dest j [ch]
        encodeLoop iMaxSize rest (j + 1) dest
      else if isChar ch ' ' then do
        let dest ← storeAt iMaxSize dest j [byteOf '+']
        encodeLoop iMaxSize rest (j + 1) dest
      else if isMark ch then do
        let dest ← storeAt iMaxSize dest j [ch]
        encodeLoop iMaxSize rest (j + 1) dest
      else if ¬ IsInt32 (j + 3) then .error .overflow
      else if (j : ℤ) + 3 < iMaxSize then do
        let dest ← storeAt iMaxSize dest j (escape ch ++ [0])
        encodeLoop iMaxSize rest (j + 3) dest
      else .ok (-2, dest)
    else finish iMaxSize j dest

/-- qfunc.h:835 -/
def q_url_encode (src : List UInt8) (dest : Memory) (iMaxSize : ℤ) : Except Fault (ℤ × Memory) :=
  if src.length = 0 ∨ iMaxSize ≤ 0 then .ok (-1, dest) else encodeLoop iMaxSize src 0 dest

/-- What a character contributes to `c`. -/
def hexBits (b : UInt8) : ℕ :=
  if between b '0' '9' then (charOf b - '0'.toNat).toNat
  else if between b 'a' 'f' then (charOf b - 'a'.toNat).toNat + 10
  else if between b 'A' 'F' then (charOf b - 'A'.toNat).toNat + 10
  else 0

/-- `for(k=1; k<=2; ++k) { c<<=4; c|=…; }` and `(char)(c&0xff)` -/
def hexByte (b₁ b₂ : UInt8) : UInt8 :=
  UInt8.ofNat ((((0 <<< 4 ||| hexBits b₁) <<< 4) ||| hexBits b₂) &&& 0xff)

/-- The two characters behind a `%` and what follows them; there are two more if
    and only if `i+2<iSrcLen`. -/
def twoMore : List UInt8 → Option (UInt8 × UInt8 × List UInt8)
  | b₁ :: b₂ :: rest => some (b₁, b₂, rest)
  | _ => none

/-- The loop of the decoder from position `i` on, where the first number is at
    least that of the characters left. -/
def decodeLoop (iMaxSize : ℤ) : ℕ → ℕ → List UInt8 → ℕ → Memory → Except Fault (ℤ × Memory)
  | 0, _, _, j, dest => finish iMaxSize j dest
  | _ + 1, _, [], j, dest => finish iMaxSize j dest
  | k + 1, i, ch :: rest, j, dest =>
    if (j : ℤ) < iMaxSize then
      if isChar ch '+' then do
        let dest ← storeAt iMaxSize dest j [byteOf ' ']
        decodeLoop iMaxSize k (i + 1) rest (j + 1) dest
      else if isChar ch '%' then
        if ¬ IsInt32 (i + 2) then .error .overflow
        else
          match twoMore rest with
          | some (b₁, b₂, rest) => do
              let dest ← storeAt iMaxSize dest j [hexByte b₁ b₂]
              decodeLoop iMaxSize k (i + 3) rest (j + 1) dest
          | none => do
              let dest ← storeAt iMaxSize dest j [ch]
              decodeLoop iMaxSize k (i + 1) rest (j + 1) dest
      else do
        let dest ← storeAt iMaxSize dest j [ch]
        decodeLoop iMaxSize k (i + 1) rest (j + 1) dest
    else finish iMaxSize j dest

/-- qfunc.h:791 -/
def q_url_decode (src : List UInt8) (dest : Memory) (iMaxSize : ℤ) : Except Fault (ℤ × Memory) :=
  if src.length = 0 ∨ iMaxSize ≤ 0 then .ok (-1, dest)
  else decodeLoop iMaxSize src.length 0 src 0 dest

/-! ## §2. What is written. -/

/-- A byte that is written as an escape. -/
def Escaped (b : UInt8) : Prop := ¬ isAlnum b ∧ ¬ isChar b ' ' ∧ ¬ isMark b

instance (b : UInt8) : Decidable (Escaped b) := inferInstanceAs (Decidable (_ ∧ _ ∧ _))

/-- What is written for a byte. -/
def encodeByte (b : UInt8) : List UInt8 :=
  if isAlnum b then [b] else if isChar b ' ' then [byteOf '+'] else if isMark b then [b] else escape b

/-- What is written for a text. -/
def encode (s : List UInt8) : List UInt8 := s.flatMap encodeByte

/-- Letters, digits, `.`, `-`, `_`, `*`, `+`, and `%` with two hexadecimal digits. -/
inductive Encoded : List UInt8 → Prop
  | nil : Encoded []
  | plain {b : UInt8} {bs : List UInt8} (h : isAlnum b ∨ isMark b ∨ isChar b '+') (hbs : Encoded bs) :
      Encoded (b :: bs)
  | triple {n₁ n₂ : ℕ} {bs : List UInt8} (h₁ : n₁ < 16) (h₂ : n₂ < 16) (hbs : Encoded bs) :
      Encoded (byteOf '%' :: hexDigit n₁ :: hexDigit n₂ :: bs)

theorem charOf_cases (b : UInt8) :
    b.toNat < 128 ∧ charOf b = b.toNat ∨ 128 ≤ b.toNat ∧ b.toNat < 256 ∧ charOf b = b.toNat - 256 := by
  have hlt := b.toNat_lt
  have hcond : charOf b = if 2 * b.toNat < 2 ^ 8 then (b.toNat : ℤ) else (b.toNat : ℤ) - (2 ^ 8 : ℕ) :=
    BitVec.toInt_eq_toNat_cond b.toBitVec
  rw [hcond]
  split
  · exact Or.inl ⟨by omega, rfl⟩
  · exact Or.inr ⟨by omega, by omega, rfl⟩

variable {b : UInt8} {s : List UInt8} {iMaxSize : ℤ}

theorem isChar_iff {c : Char} (hc : c.toNat < 128) : isChar b c ↔ b = byteOf c := by
  have hbyte : (byteOf c).toNat = c.toNat := UInt8.toNat_ofNat_of_lt' (lt_trans hc (by decide))
  rw [isChar, ← UInt8.toNat_inj, hbyte]
  obtain ⟨hlow, heq⟩ | ⟨hlow, hhigh, heq⟩ := charOf_cases b
  · omega
  · omega

theorem not_special (h : isAlnum b ∨ isMark b) : ¬ isChar b '+' ∧ ¬ isChar b '%' := by
  unfold isAlnum between isMark isChar at h
  have hA : 'A'.toNat = 65 := rfl
  have ha : 'a'.toNat = 97 := rfl
  have h0 : '0'.toNat = 48 := rfl
  have hmarks : '.'.toNat = 46 ∧ '-'.toNat = 45 ∧ '_'.toNat = 95 ∧ '*'.toNat = 42 := ⟨rfl, rfl, rfl, rfl⟩
  have hspecial : '+'.toNat = 43 ∧ '%'.toNat = 37 := ⟨rfl, rfl⟩
  unfold isChar
  omega

theorem encodeByte_plain (h : isAlnum b ∨ isMark b) : encodeByte b = [b] := by
  unfold encodeByte
  by_cases hal : isAlnum b
  · rw [if_pos hal]
  have hmark := h.resolve_left hal
  have hblank : ¬ isChar b ' ' := by
    unfold isMark isChar at hmark
    have hmarks : '.'.toNat = 46 ∧ '-'.toNat = 45 ∧ '_'.toNat = 95 ∧ '*'.toNat = 42 :=
      ⟨rfl, rfl, rfl, rfl⟩
    have hspace : ' '.toNat = 32 := rfl
    unfold isChar
    omega
  rw [if_neg hal, if_neg hblank, if_pos hmark]

theorem encodeByte_blank (h : isChar b ' ') : encodeByte b = [byteOf '+'] := by
  have hal : ¬ isAlnum b := by
    unfold isChar at h
    unfold isAlnum between
    have hA : 'A'.toNat = 65 := rfl
    have ha : 'a'.toNat = 97 := rfl
    have h0 : '0'.toNat = 48 := rfl
    have hspace : ' '.toNat = 32 := rfl
    omega
  rw [encodeByte, if_neg hal, if_pos h]

theorem encodeByte_escaped (h : Escaped b) : encodeByte b = escape b := by
  rw [encodeByte, if_neg h.1, if_neg h.2.1, if_neg h.2.2]

/-- **The three kinds of bytes.** -/
theorem kinds (b : UInt8) : (isAlnum b ∨ isMark b) ∨ isChar b ' ' ∨ Escaped b := by
  tauto

theorem length_encodeByte (b : UInt8) : 1 ≤ (encodeByte b).length ∧ (encodeByte b).length ≤ 3 ∧
    (Escaped b → (encodeByte b).length = 3) := by
  refine ⟨?_, ?_, fun h => ?_⟩
  · obtain h | h | h := kinds b
    · rw [encodeByte_plain h]
      exact le_rfl
    · rw [encodeByte_blank h]
      exact le_rfl
    · rw [encodeByte_escaped h]
      exact Nat.le_add_left 1 2
  · obtain h | h | h := kinds b
    · rw [encodeByte_plain h]
      exact Nat.le_add_left 1 2
    · rw [encodeByte_blank h]
      exact Nat.le_add_left 1 2
    · rw [encodeByte_escaped h]
      exact le_rfl
  · rw [encodeByte_escaped h]
    rfl

theorem encode_cons (b : UInt8) (s : List UInt8) : encode (b :: s) = encodeByte b ++ encode s :=
  flatMap_cons

theorem length_encode_le (s : List UInt8) : (encode s).length ≤ 3 * s.length := by
  induction s with
  | nil => exact le_rfl
  | cons b s ih =>
    have hb := (length_encodeByte b).2.1
    rw [encode_cons, length_append, length_cons]
    omega

/-- **What is written is well formed.** -/
theorem encoded_encode (s : List UInt8) : Encoded (encode s) := by
  induction s with
  | nil => exact Encoded.nil
  | cons b s ih =>
    rw [encode_cons]
    obtain h | h | h := kinds b
    · rw [encodeByte_plain h]
      exact Encoded.plain (h.imp_right Or.inl) ih
    · rw [encodeByte_blank h]
      exact Encoded.plain (Or.inr (Or.inr ((isChar_iff (by decide)).mpr rfl))) ih
    · rw [encodeByte_escaped h]
      have hlt := b.toNat_lt
      exact Encoded.triple (by omega) (Nat.mod_lt _ (by decide)) ih

/-! ## §3. The encoder. -/

section Encoder

variable {n : ℤ} {j : ℕ} {dest : Memory}

theorem storeAt_of_le {bs : List UInt8} (h : ((j + bs.length : ℕ) : ℤ) ≤ n) :
    storeAt n dest j bs = .ok (dest.write j bs) := if_pos h

theorem ok_bind {α β : Type} (x : α) (f : α → Except Fault β) : (Except.ok x >>= f) = f x := rfl

theorem read_write_next (dest : Memory) (j : ℕ) (bs : List UInt8) :
    (dest.write j bs).read 0 (j + bs.length) = dest.read 0 j ++ bs := by
  rw [Memory.read_add, Nat.zero_add, Memory.read_write_self,
    Memory.read_write_of_disjoint _ (Or.inl (by omega))]

theorem read_write_escape (dest : Memory) (j : ℕ) (bs : List UInt8) (b : UInt8) :
    (dest.write j (bs ++ [b])).read 0 (j + bs.length) = dest.read 0 j ++ bs := by
  rw [← Memory.write_append, Memory.read_write_of_disjoint _ (Or.inl (by omega)), read_write_next]

theorem finish_room (h : (j : ℤ) < n) : finish n j dest = .ok ((j : ℤ), dest.write j [0]) := by
  unfold finish
  rw [if_neg (by omega), storeAt_of_le (by rw [length_singleton]; omega)]
  rfl

variable {ch : UInt8} {s : List UInt8}

/-- **A byte with enough room** is written. -/
theorem encodeLoop_cons (hj : (j : ℤ) < n) (hroom : Escaped ch → (j : ℤ) + 3 < 2 ^ 31 ∧ (j : ℤ) + 3 < n) :
    ∃ dest', encodeLoop n (ch :: s) j dest = encodeLoop n s (j + (encodeByte ch).length) dest' ∧
      dest'.read 0 (j + (encodeByte ch).length) = dest.read 0 j ++ encodeByte ch := by
  have hone : ∀ c : UInt8, ((j + [c].length : ℕ) : ℤ) ≤ n := by
    intro c
    rw [length_singleton]
    omega
  obtain h | h | h := kinds ch
  · -- letters and digits, or one of the four marks
    rw [encodeByte_plain h]
    refine ⟨dest.write j [ch], ?_, read_write_next dest j [ch]⟩
    rw [encodeLoop, if_pos hj]
    by_cases hal : isAlnum ch
    · rw [if_pos hal, storeAt_of_le (hone ch)]
      rfl
    have hbyte := encodeByte_plain h
    rw [encodeByte, if_neg hal] at hbyte
    have hblank : ¬ isChar ch ' ' := by
      intro hblank
      rw [if_pos hblank] at hbyte
      have hplus : ch = byteOf '+' := (singleton_inj.mp hbyte).symm
      exact (not_special h).1 ((isChar_iff (by decide)).mpr hplus)
    rw [if_neg hal, if_neg hblank, if_pos (h.resolve_left hal), storeAt_of_le (hone ch)]
    rfl
  · rw [encodeByte_blank h]
    refine ⟨dest.write j [byteOf '+'], ?_, read_write_next dest j [byteOf '+']⟩
    have hal : ¬ isAlnum ch := by
      intro hal
      have hbyte := encodeByte_plain (Or.inl hal)
      rw [encodeByte_blank h] at hbyte
      exact (not_special (Or.inl hal)).1 ((isChar_iff (by decide)).mpr (singleton_inj.mp hbyte).symm)
    rw [encodeLoop, if_pos hj, if_neg hal, if_pos h, storeAt_of_le (hone _)]
    rfl
  · -- `sprintf` writes a NUL behind the three characters
    obtain ⟨hint, hfit⟩ := hroom h
    rw [encodeByte_escaped h]
    refine ⟨dest.write j (escape ch ++ [0]), ?_, read_write_escape dest j (escape ch) 0⟩
    have hint' : IsInt32 ((j : ℤ) + 3) := by
      unfold IsInt32 INT32_MIN INT32_MAX
      omega
    have hwrite : ((j + (escape ch ++ [0]).length : ℕ) : ℤ) ≤ n := by
      show ((j + 4 : ℕ) : ℤ) ≤ n
      omega
    rw [encodeLoop, if_pos hj, if_neg h.1, if_neg h.2.1, if_neg h.2.2, if_neg (not_not.mpr hint'),
      if_pos hfit, storeAt_of_le hwrite]
    rfl

/-- The test for the room of an escape does not overflow, with `j` bytes written
    before `s`. -/
def FitsFrom (j : ℕ) (s : List UInt8) (n : ℤ) : Prop :=
  ∀ p c r, s = p ++ c :: r → Escaped c →
    ¬ (2 ^ 31 - 3 ≤ ((j + (encode p).length : ℕ) : ℤ) ∧ ((j + (encode p).length : ℕ) : ℤ) < n)

theorem FitsFrom.head (h : FitsFrom j (ch :: s) n) (hch : Escaped ch) :
    ¬ (2 ^ 31 - 3 ≤ (j : ℤ) ∧ (j : ℤ) < n) := h [] ch s rfl hch

theorem fitsFrom_cons : FitsFrom j (ch :: s) n ↔ (Escaped ch → ¬ (2 ^ 31 - 3 ≤ (j : ℤ) ∧ (j : ℤ) < n)) ∧
      FitsFrom (j + (encodeByte ch).length) s n := by
  constructor
  · intro h
    refine ⟨h.head, fun p c r hs hc => ?_⟩
    have hmore := h (ch :: p) c r (by rw [hs]; rfl) hc
    rw [encode_cons, length_append, ← Nat.add_assoc] at hmore
    exact hmore
  · rintro ⟨hhead, htail⟩ p c r hs hc
    cases p with
    | nil =>
      obtain ⟨rfl, rfl⟩ := List.cons.inj hs
      exact hhead hc
    | cons b p =>
      obtain ⟨rfl, rfl⟩ := List.cons.inj hs
      rw [encode_cons, length_append, ← Nat.add_assoc]
      exact htail p c r rfl hc

/-- **WHAT IS WRITTEN**, when the test does not overflow: the whole encoding if
    there is room for it. -/
theorem encodeLoop_fits (s : List UInt8) : ∀ {j : ℕ} {dest : Memory}, (j : ℤ) ≤ n → FitsFrom j s n →
    ∃ r dest', encodeLoop n s j dest = .ok (r, dest') ∧
      (r < 0 ∧ n ≤ ((j + (encode s).length : ℕ) : ℤ) ∨
        r = ((j + (encode s).length : ℕ) : ℤ) ∧ r < n ∧
          dest'.read 0 (j + (encode s).length) = dest.read 0 j ++ encode s) := by
  induction s with
  | nil =>
    intro j dest hj _
    by_cases hfull : (j : ℤ) = n
    · refine ⟨-1, dest, if_pos hfull, Or.inl ⟨by decide, ?_⟩⟩
      rw [← hfull]
      exact le_rfl
    · refine ⟨_, _, finish_room (by omega), Or.inr ⟨rfl, by omega, ?_⟩⟩
      show (dest.write j [0]).read 0 (j + 0) = dest.read 0 j ++ []
      rw [Nat.add_zero, append_nil, Memory.read_write_of_disjoint _ (Or.inl (by omega))]
  | cons ch s ih =>
    intro j dest hj hfits
    obtain ⟨hhead, htail⟩ := fitsFrom_cons.mp hfits
    have hlen := length_encodeByte ch
    rw [encode_cons, length_append, ← Nat.add_assoc]
    by_cases hroom : (j : ℤ) < n ∧ (Escaped ch → (j : ℤ) + 3 < n)
    · have hfits' : Escaped ch → (j : ℤ) + 3 < 2 ^ 31 ∧ (j : ℤ) + 3 < n := by
        intro hch
        have hno := hhead hch
        have hmore := hroom.2 hch
        omega
      obtain ⟨dest', hloop, hread⟩ := @encodeLoop_cons n j dest ch s hroom.1 hfits'
      have hnext : ((j + (encodeByte ch).length : ℕ) : ℤ) ≤ n := by
        by_cases hch : Escaped ch
        · have hthree := hlen.2.2 hch
          have hmore := hroom.2 hch
          omega
        have hone : (encodeByte ch).length = 1 := by
          obtain h | h | h := kinds ch
          · rw [encodeByte_plain h]
            rfl
          · rw [encodeByte_blank h]
            rfl
          · exact absurd h hch
        omega
      obtain ⟨r, dest'', hrun, hresult⟩ := @ih _ dest' hnext htail
      rw [hread, append_assoc] at hresult
      exact ⟨r, dest'', hloop.trans hrun, hresult⟩
    -- no room: the loop ends here
    · by_cases hj' : (j : ℤ) < n
      · -- only an escape needs more than one byte
        have hch : Escaped ch := by
          by_contra hno
          exact hroom ⟨hj', fun hch => absurd hch hno⟩
        have hfull : ¬ ((j : ℤ) + 3 < n) := fun hmore => hroom ⟨hj', fun _ => hmore⟩
        have hno := hhead hch
        have hint : IsInt32 ((j : ℤ) + 3) := by
          unfold IsInt32 INT32_MIN INT32_MAX
          omega
        refine ⟨-2, dest, ?_, Or.inl ⟨by decide, ?_⟩⟩
        · rw [encodeLoop, if_pos hj', if_neg hch.1, if_neg hch.2.1, if_neg hch.2.2,
            if_neg (not_not.mpr hint), if_neg hfull]
        · have hthree := hlen.2.2 hch
          omega
      · -- the loop has come to `iMaxSize`
        refine ⟨-1, dest, ?_, Or.inl ⟨by decide, by omega⟩⟩
        rw [encodeLoop, if_neg hj']
        exact if_pos (by omega)

/-- **When the test overflows.** -/
theorem encodeLoop_overflows (s : List UInt8) : ∀ {j : ℕ} {dest : Memory}, ¬ FitsFrom j s n →
    encodeLoop n s j dest = .error .overflow := by
  induction s with
  | nil =>
    intro j dest hbad
    refine absurd (fun p c r hs => ?_) hbad
    exact absurd hs.symm (by simp)
  | cons ch s ih =>
    intro j dest hbad
    -- the escape that overflows is still to come, so there is room up to it
    have hlen := length_encodeByte ch
    by_cases hhere : Escaped ch ∧ 2 ^ 31 - 3 ≤ (j : ℤ) ∧ (j : ℤ) < n
    · obtain ⟨hch, hlow, hj⟩ := hhere
      have hint : ¬ IsInt32 ((j : ℤ) + 3) := by
        unfold IsInt32 INT32_MIN INT32_MAX
        omega
      rw [encodeLoop, if_pos hj, if_neg hch.1, if_neg hch.2.1, if_neg hch.2.2, if_pos hint]
    have htail : ¬ FitsFrom (j + (encodeByte ch).length) s n := fun htail =>
      hbad (fitsFrom_cons.mpr ⟨fun hch hmore => hhere ⟨hch, hmore⟩, htail⟩)
    -- otherwise the loop would end before it
    have hroom : ((j + (encodeByte ch).length : ℕ) : ℤ) < n := by
      by_contra hfull
      refine htail fun p c r _ _ hmore => ?_
      omega
    have hno : Escaped ch → ¬ (2 ^ 31 - 3 ≤ (j : ℤ) ∧ (j : ℤ) < n) := fun hch hmore =>
      hhere ⟨hch, hmore⟩
    have hfits : Escaped ch → (j : ℤ) + 3 < 2 ^ 31 ∧ (j : ℤ) + 3 < n := by
      intro hch
      have hthree := hlen.2.2 hch
      have hlow := hno hch
      omega
    obtain ⟨dest', hloop, -⟩ := @encodeLoop_cons n j dest ch s (by omega) hfits
    rw [hloop]
    exact ih htail

end Encoder

/-! ## §4. The decoder. -/

section Decoder

variable {n : ℤ} {i j : ℕ} {dest : Memory}

theorem hexBits_hexDigit : ∀ k < 16, hexBits (hexDigit k) = k := by decide

/-- **The two digits of a byte** are read back. -/
theorem hexByte_escape (b : UInt8) : hexByte (hexDigit (b.toNat / 16)) (hexDigit (b.toNat % 16)) = b := by
  have hlt := b.toNat_lt
  have hhigh : b.toNat / 16 < 16 := by omega
  have hlow : b.toNat % 16 < 16 := Nat.mod_lt _ (by decide)
  unfold hexByte
  rw [hexBits_hexDigit _ hhigh, hexBits_hexDigit _ hlow, Nat.zero_shiftLeft, Nat.zero_or,
    ← Nat.shiftLeft_add_eq_or_of_lt (by omega : b.toNat % 16 < 2 ^ 4), Nat.shiftLeft_eq,
    Nat.and_two_pow_sub_one_eq_mod _ 8]
  have hsum : (b.toNat / 16 * 2 ^ 4 + b.toNat % 16) % 2 ^ 8 = b.toNat := by omega
  rw [hsum, UInt8.ofNat_toNat]

theorem decodeLoop_plain {ch : UInt8} (hplus : ¬ isChar ch '+') (hpercent : ¬ isChar ch '%') (k : ℕ)
    (rest : List UInt8) (hj : (j : ℤ) < n) : decodeLoop n (k + 1) i (ch :: rest) j dest =
      decodeLoop n k (i + 1) rest (j + 1) (dest.write j [ch]) := by
  rw [decodeLoop, if_pos hj, if_neg hplus, if_neg hpercent,
    storeAt_of_le (by rw [length_singleton]; omega), ok_bind]

theorem decodeLoop_plus (k : ℕ) (rest : List UInt8) (hj : (j : ℤ) < n) :
    decodeLoop n (k + 1) i (byteOf '+' :: rest) j dest =
      decodeLoop n k (i + 1) rest (j + 1) (dest.write j [byteOf ' ']) := by
  rw [decodeLoop, if_pos hj, if_pos ((isChar_iff (by decide)).mpr rfl),
    storeAt_of_le (by rw [length_singleton]; omega), ok_bind]

theorem decodeLoop_triple (k : ℕ) (b₁ b₂ : UInt8) (rest : List UInt8) (hj : (j : ℤ) < n)
    (hi : (i : ℤ) + 2 < 2 ^ 31) : decodeLoop n (k + 1) i (byteOf '%' :: b₁ :: b₂ :: rest) j dest =
      decodeLoop n k (i + 3) rest (j + 1) (dest.write j [hexByte b₁ b₂]) := by
  have hint : IsInt32 ((i : ℤ) + 2) := by
    unfold IsInt32 INT32_MIN INT32_MAX
    omega
  rw [decodeLoop, if_pos hj, if_neg (by decide), if_pos ((isChar_iff (by decide)).mpr rfl),
    if_neg (not_not.mpr hint), twoMore]
  dsimp only
  rw [storeAt_of_le (by rw [length_singleton]; omega), ok_bind]

/-- **READING BACK** what is written. -/
theorem decodeLoop_encoded (s : List UInt8) : ∀ {k i j : ℕ} {dest : Memory}, (encode s).length ≤ k →
    ((i + (encode s).length : ℕ) : ℤ) < 2 ^ 31 → ((j + s.length : ℕ) : ℤ) < n →
      ∃ dest', decodeLoop n k i (encode s) j dest = .ok (((j + s.length : ℕ) : ℤ), dest') ∧
        dest'.read 0 (j + s.length) = dest.read 0 j ++ s := by
  induction s with
  | nil =>
    intro k i j dest _ _ hj
    have hrun : decodeLoop n k i (encode []) j dest = finish n j dest := by
      cases k with
      | zero => rfl
      | succ k => rfl
    refine ⟨_, hrun.trans (finish_room hj), ?_⟩
    show (dest.write j [0]).read 0 (j + 0) = dest.read 0 j ++ []
    rw [Nat.add_zero, append_nil, Memory.read_write_of_disjoint _ (Or.inl (by omega))]
  | cons b s ih =>
    intro k i j dest hk hi hj
    rw [length_cons] at hj
    have hnow : (j : ℤ) < n := by omega
    have hb := length_encodeByte b
    rw [encode_cons, length_append] at hk hi
    obtain ⟨k, rfl⟩ : ∃ k', k = k' + 1 := ⟨k - 1, by omega⟩
    -- each kind of byte takes a round, which leaves `b` behind
    have hrest : ((i + (encodeByte b).length + (encode s).length : ℕ) : ℤ) < 2 ^ 31 →
        ∃ dest', decodeLoop n k (i + (encodeByte b).length) (encode s) (j + 1) (dest.write j [b]) =
            .ok (((j + (b :: s).length : ℕ) : ℤ), dest') ∧
          dest'.read 0 (j + (b :: s).length) = dest.read 0 j ++ b :: s := by
      intro hnext
      obtain ⟨dest', hrun, hread⟩ :=
        @ih k (i + (encodeByte b).length) (j + 1) (dest.write j [b]) (by omega) hnext (by omega)
      have hone := read_write_next dest j [b]
      rw [length_singleton] at hone
      rw [hone, append_assoc, Nat.add_right_comm] at hread
      rw [Nat.add_right_comm] at hrun
      exact ⟨dest', hrun, hread⟩
    obtain ⟨dest', hrun, hread⟩ := hrest (by omega)
    refine ⟨dest', ?_, hread⟩
    rw [← hrun, encode_cons]
    obtain h | h | h := kinds b
    · rw [encodeByte_plain h]
      obtain ⟨hplus, hpercent⟩ := not_special h
      exact decodeLoop_plain hplus hpercent k _ hnow
    · rw [encodeByte_blank h, singleton_append, decodeLoop_plus k _ hnow,
        ← (isChar_iff (by decide)).mp h]
      rfl
    · rw [encodeByte_escaped h] at hi ⊢
      have hthree : (escape b).length = 3 := rfl
      show decodeLoop n (k + 1) i (byteOf '%' :: hexDigit _ :: hexDigit _ :: encode s) j dest = _
      rw [decodeLoop_triple k _ _ _ hnow (by omega), hexByte_escape, hthree]

/-- The decoder stays inside of its target. -/
theorem decodeLoop_inside (k : ℕ) : ∀ {s : List UInt8} {i j : ℕ} {dest : Memory}, (j : ℤ) ≤ n →
    decodeLoop n k i s j dest ≠ .error .outsideDest := by
  have hfinish : ∀ {j : ℕ} {dest : Memory}, (j : ℤ) ≤ n → finish n j dest ≠ .error .outsideDest := by
    intro j dest hj
    by_cases hfull : (j : ℤ) = n
    · rw [finish, if_pos hfull]
      exact fun h => nomatch h
    · rw [finish_room (by omega)]
      exact fun h => nomatch h
  induction k with
  | zero => exact fun hj => hfinish hj
  | succ k ih =>
    intro s i j dest hj
    cases s with
    | nil => exact hfinish hj
    | cons ch rest =>
      have hone : ∀ c : UInt8, (j : ℤ) < n → ((j + [c].length : ℕ) : ℤ) ≤ n := by
        intro c hlt
        rw [length_singleton]
        omega
      rw [decodeLoop]
      split_ifs with hlt hplus hpercent hint
      · rw [storeAt_of_le (hone _ hlt), ok_bind]
        exact ih (by omega)
      · split
        · rw [storeAt_of_le (hone _ hlt), ok_bind]
          exact ih (by omega)
        · rw [storeAt_of_le (hone _ hlt), ok_bind]
          exact ih (by omega)
      · exact fun h => nomatch h
      · rw [storeAt_of_le (hone _ hlt), ok_bind]
        exact ih (by omega)
      · exact hfinish hj

theorem q_url_decode_inside (src : List UInt8) (dest : Memory) (n : ℤ) :
    q_url_decode src dest n ≠ .error .outsideDest := by
  unfold q_url_decode
  split_ifs with hempty
  · exact fun h => nomatch h
  · exact decodeLoop_inside src.length (by omega)

end Decoder

/-! ## §5. The round trip. -/

/-- What is promised of the encoding of `s` into `iMaxSize` bytes: it stays
    inside of them, and if it succeeds, as it does with more than `3*|s|`
    bytes, the result is well formed and is read back. -/
def UrlMeets (s : List UInt8) (dest : Memory) (iMaxSize : ℤ) : Prop :=
  ∃ r dest', q_url_encode s dest iMaxSize = .ok (r, dest') ∧ (3 * (s.length : ℤ) < iMaxSize → 0 ≤ r) ∧
    (0 ≤ r → ∃ bs : List UInt8, r = bs.length ∧ dest'.read 0 bs.length = bs ∧ Encoded bs ∧
      ∀ (m : ℤ) (dest₂ : Memory), (s.length : ℤ) < m →
        ∃ dest₃, q_url_decode bs dest₂ m = .ok ((s.length : ℤ), dest₃) ∧ dest₃.read 0 s.length = s)

/-- No byte that must be escaped comes when `2³¹−3` bytes or more have been
    written and there are bytes left. -/
def EscapesFit (s : List UInt8) (iMaxSize : ℤ) : Prop := FitsFrom 0 s iMaxSize

theorem q_url_encode_eq (hs : s ≠ []) (dest : Memory) {n : ℤ} (hn : 0 < n) :
    q_url_encode s dest n = encodeLoop n s 0 dest := by
  have hempty : s.length ≠ 0 := mt length_eq_zero_iff.mp hs
  exact if_neg (by omega)

/-- What is written is read back. -/
theorem q_url_decode_encode (hs : s ≠ []) (hlen : ((encode s).length : ℤ) < 2 ^ 31) (dest : Memory) {m : ℤ}
    (hm : (s.length : ℤ) < m) : ∃ dest', q_url_decode (encode s) dest m = .ok ((s.length : ℤ), dest') ∧
      dest'.read 0 s.length = s := by
  have hpos : 1 ≤ (encode s).length := by
    cases s with
    | nil => exact absurd rfl hs
    | cons b s =>
      have hb := (length_encodeByte b).1
      rw [encode_cons, length_append]
      omega
  have hcall : q_url_decode (encode s) dest m = decodeLoop m (encode s).length 0 (encode s) 0 dest :=
    if_neg (by omega)
  rw [hcall]
  obtain ⟨dest', hrun, hread⟩ := @decodeLoop_encoded m s _ 0 0 dest le_rfl (by omega) (by omega)
  rw [Nat.zero_add] at hrun hread
  exact ⟨dest', hrun, hread⟩

theorem escapesFit_of_urlMeets (hs : s ≠ []) {dest : Memory} (h : UrlMeets s dest iMaxSize) :
    EscapesFit s iMaxSize := by
  obtain ⟨r, dest', hrun, -⟩ := h
  by_contra hbad
  by_cases hn : 0 < iMaxSize
  · rw [q_url_encode_eq hs dest hn, encodeLoop_overflows s hbad] at hrun
    cases hrun
  · refine hbad fun p c r _ _ hmore => ?_
    omega

/-- **A call that does not overflow** meets its promise. -/
theorem urlMeets_of_escapesFit (hs : s ≠ []) (dest : Memory) (hmax : iMaxSize < 2 ^ 31)
    (hfits : EscapesFit s iMaxSize) : UrlMeets s dest iMaxSize := by
  by_cases hn : 0 < iMaxSize
  · obtain ⟨r, dest', hrun, hresult⟩ := @encodeLoop_fits iMaxSize s 0 dest (by omega) hfits
    rw [Nat.zero_add] at hresult
    refine ⟨r, dest', (q_url_encode_eq hs dest hn).trans hrun, fun hroom => ?_, fun hr => ?_⟩
    · have hle := length_encode_le s
      obtain ⟨-, hfull⟩ | ⟨heq, -, -⟩ := hresult
      · omega
      · omega
    · obtain ⟨heq, hlt, hread⟩ := hresult.resolve_left fun h => absurd hr (not_le.mpr h.1)
      exact ⟨encode s, heq, hread, encoded_encode s, fun m dest₂ hm =>
        q_url_decode_encode hs (by omega) dest₂ hm⟩
  · refine ⟨-1, dest, if_pos (Or.inr (not_lt.mp hn)), fun hroom => ?_, fun hr => absurd hr (by decide)⟩
    omega

/-- **THE ROUND TRIP, AND NO BYTE OUTSIDE OF THE BUFFERS, IF AND ONLY IF THE
    ESCAPES FIT**; the decoder stays inside of its target on all strings. -/
theorem url_code_iff {s : List UInt8} (hs : s ≠ []) (dest : Memory) {iMaxSize : ℤ}
    (hmax : iMaxSize < 2 ^ 31) : (UrlMeets s dest iMaxSize ↔ EscapesFit s iMaxSize) ∧
      ∀ (src : List UInt8) (dest₂ : Memory) (m : ℤ), q_url_decode src dest₂ m ≠ .error .outsideDest :=
  ⟨⟨escapesFit_of_urlMeets hs, urlMeets_of_escapesFit hs dest hmax⟩, q_url_decode_inside⟩

theorem escapesFit_of_le (h : iMaxSize ≤ 2 ^ 31 - 3) : EscapesFit s iMaxSize := by
  intro p c r _ _ hmore
  omega

/-- A blank and a percent sign take four bytes. -/
theorem url_code_iff_two : UrlMeets [byteOf ' ', byteOf '%'] (fun _ => 0) 7 :=
  (url_code_iff (by decide) (fun _ => 0) (by decide)).1.mpr (escapesFit_of_le (by decide))

/-- `2³¹−3` letters and a byte that must be escaped. -/
def longString : List UInt8 := List.replicate (2 ^ 31 - 3) (byteOf 'A') ++ [byteOf '%']

theorem length_encode_replicate (k : ℕ) : (encode (List.replicate k (byteOf 'A'))).length = k := by
  induction k with
  | zero => rfl
  | succ k ih =>
    rw [replicate_succ, encode_cons, length_append, ih, encodeByte_plain (Or.inl (by decide)),
      length_singleton, Nat.add_comm]

/-- **The test overflows** with two bytes left. -/
theorem longString_overflows : ¬ UrlMeets longString (fun _ => 0) (2 ^ 31 - 1) := by
  have hne : longString ≠ [] := List.append_ne_nil_of_right_ne_nil _ (List.cons_ne_nil _ _)
  intro h
  refine escapesFit_of_urlMeets hne h _ (byteOf '%') [] rfl (by decide) ?_
  rw [length_encode_replicate]
  decide

end KalavaPir.Common.UrlCode
