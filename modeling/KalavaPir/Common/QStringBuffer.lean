/-
  KalavaPir.Common.QStringBuffer — the string buffer of `common/qglobal.h`.

  A byte that was never written has no value (`none`).  A store outside the
  `max_size_` bytes of the buffer, and an overflow, are undefined.
  `append(char)` makes room for the character and not for the NUL behind it;
  `append(str)` makes room for both and writes no NUL.
-/
import KalavaPir.Common.Int32
import KalavaPir.Framework.Histories
import KalavaPir.Framework.Stores
import Mathlib.Data.List.TakeWhile

namespace KalavaPir.Common

open KalavaPir.Framework List Option

/-! ## §1. The buffer and its calls (qglobal.h:1964). -/

/-- The fields of the class. -/
structure QStringBuffer where
  buffer_ : ℕ → Option UInt8
  length_ : ℕ
  max_size_ : ℤ

namespace QStringBuffer

/-- `strncpy` of `n` bytes of `src`: behind a NUL there are only NULs. -/
def strncpy (src : List (Option UInt8)) (n : ℕ) : List (Option UInt8) :=
  (src.take n).takeWhile (· ≠ some 0) ++
    List.replicate (n - ((src.take n).takeWhile (· ≠ some 0)).length) (some 0)

/-- Stores in `buffer_`. -/
def store (q : QStringBuffer) (log : Stores (Option UInt8)) : Option QStringBuffer :=
  if log.Inside q.max_size_.toNat then some { q with buffer_ := log.after q.buffer_ } else none

/-- The constructor `QStringBuffer(size)`, with memory for `max_size_` bytes. -/
def make (size : ℤ) : Option QStringBuffer :=
  (int32 (size + 1)).bind fun max_size =>
    store { buffer_ := fun _ => none, length_ := 0, max_size_ := max_size } (Stores.fill 0 [some 0])

/-- `clear()`. -/
def clear (q : QStringBuffer) : Option QStringBuffer :=
  (q.store (Stores.fill 0 [some 0])).map fun q => { q with length_ := 0 }

/-- `growBuffer(size)`: a shifted `max_size_` wraps around. -/
def growBuffer (q : QStringBuffer) (size : ℤ) : QStringBuffer :=
  let max_size := Int.bmod (2 * q.max_size_) (2 ^ 32)
  { q with
    max_size_ := if max_size < size then size else max_size
    buffer_ := (Stores.fill 0 (strncpy (Stores.contents q.buffer_ q.length_) q.length_)).after fun _ => none }

/-- `if(size>max_size_) growBuffer(size);` -/
def room (q : QStringBuffer) (size : ℤ) : QStringBuffer := if size > q.max_size_ then q.growBuffer size else q

/-- `append(character)`. -/
def append_char (q : QStringBuffer) (character : UInt8) : Option QStringBuffer :=
  (int32 (q.length_ + 1)).bind fun size =>
    ((q.room size).store (Stores.fill q.length_ [some character])).bind fun q =>
      ({ q with length_ := q.length_ + 1 } : QStringBuffer).store (Stores.fill (q.length_ + 1) [some 0])

/-- The `len` of `append(str, len)`; `strlen(str)` is cut down to an `int32_t`. -/
def lengthOf (str : List UInt8) (len : ℤ) : ℤ := if len = -1 then Int.bmod str.length (2 ^ 32) else len

/-- `append(str, len)`; a negative length is a huge one for `strncpy`. -/
def append_str (q : QStringBuffer) (str : List UInt8) (len : ℤ) : Option QStringBuffer :=
  let len := lengthOf str len
  (int32 (q.length_ + len)).bind fun stop =>
    (int32 (stop + 1)).bind fun size =>
      if 0 ≤ len then
        ((q.room size).store (Stores.fill q.length_ (strncpy (str.map some ++ [some 0]) len.toNat))).map fun q =>
          { q with length_ := q.length_ + len.toNat }
      else none

/-- The calls; a string comes without its NUL, and `len` is -1 if it is left out. -/
inductive Call
  | append_char (character : UInt8)
  | append_str (str : List UInt8) (len : ℤ)
  | clear

/-- A call. -/
def step (q : QStringBuffer) : Call → Except Stop (Unit × QStringBuffer)
  | .append_char character => checked (q.append_char character) fun q => .ok ((), q)
  | .append_str str len => checked (q.append_str str len) fun q => .ok ((), q)
  | .clear => checked q.clear fun q => .ok ((), q)

/-- What is given to a call: no NUL, and no more bytes than the string has. -/
def Call.Given : Call → Prop
  | .append_char character => character ≠ 0
  | .append_str str len => 0 ∉ str ∧ (len = -1 ∨ 0 ≤ len ∧ len ≤ str.length)
  | .clear => True

instance (l : Call) : Decidable l.Given := by
  cases l <;> unfold Call.Given <;> infer_instance

/-! ## §2. The text. -/

/-- What `append(str, len)` appends. -/
def appended (str : List UInt8) (len : ℤ) : List UInt8 := if len = -1 then str else str.take len.toNat

/-- The same calls on the text. -/
def text (t : List UInt8) : Call → Except Stop (Unit × List UInt8)
  | .append_char character => .ok ((), t ++ [character])
  | .append_str str len => .ok ((), t ++ appended str len)
  | .clear => .ok ((), [])

/-- **THE TEXT IS THERE**, with a NUL behind it, inside the buffer. -/
structure Holds (q : QStringBuffer) (t : List UInt8) : Prop where
  length : q.length_ = t.length
  inside : (t.length : ℤ) < q.max_size_
  bytes : Stores.contents q.buffer_ t.length = t.map some
  nul : q.buffer_ t.length = some 0

/-- There is room for what is appended and a NUL; and a string ends where there is
    a NUL already. -/
def Keeps (q : QStringBuffer) (t : List UInt8) : Call → Prop
  | .append_char _ => (t.length : ℤ) + 2 ≤ q.max_size_
  | .append_str str len =>
    (t.length : ℤ) + (appended str len).length + 1 ≤ q.max_size_ ∧
      q.buffer_ (t.length + (appended str len).length) = some 0
  | .clear => True

instance (q : QStringBuffer) (t : List UInt8) (l : Call) : Decidable (Keeps q t l) := by
  cases l <;> unfold Keeps <;> infer_instance

/-! ## §3. One call. -/

section Calls

variable {q q' : QStringBuffer} {t str : List UInt8} {len : ℤ} {character : UInt8}

/-- The size of the buffer is an `int32_t`. -/
def Sized (q : QStringBuffer) : Prop := q.max_size_ ≤ INT32_MAX

/-- A string without a NUL is copied as it is. -/
theorem strncpy_of_le (hstr : 0 ∉ str) {n : ℕ} (hn : n ≤ str.length) :
    strncpy (str.map some ++ [some 0]) n = (str.take n).map some := by
  have htake : (str.map some ++ [some 0]).take n = (str.take n).map some := by
    rw [take_append_of_le_length (by rw [length_map]; exact hn), map_take]
  have hall : ∀ c ∈ (str.take n).map some, decide (c ≠ some (0 : UInt8)) = true := by
    intro c hc
    obtain ⟨b, hb, rfl⟩ := mem_map.mp hc
    apply decide_eq_true
    intro h
    rw [Option.some.inj h] at hb
    exact hstr (mem_of_mem_take hb)
  unfold strncpy
  rw [htake, takeWhile_eq_self_iff.mpr hall, length_map, length_take, Nat.min_eq_left hn,
    Nat.sub_self, replicate_zero, append_nil]

theorem length_strncpy (src : List (Option UInt8)) (n : ℕ) : (strncpy src n).length = n := by
  have hle : ((src.take n).takeWhile (· ≠ some 0)).length ≤ n := by
    have htake := length_take_le n src
    have hwhile := (List.takeWhile_prefix (l := src.take n) (fun c => decide (c ≠ some 0))).length_le
    omega
  unfold strncpy
  rw [length_append, length_replicate]
  omega

@[simp] theorem length_room (q : QStringBuffer) (size : ℤ) : (q.room size).length_ = q.length_ := by
  unfold room
  split
  · rfl
  · rfl

/-- What is appended behind a text, and the NUL that is found behind that. -/
theorem Holds.fill {log : List UInt8} (h : Holds q t) (hin : (t.length : ℤ) + log.length < q.max_size_)
    (hbuf : q'.buffer_ = (Stores.fill t.length (log.map some)).after q.buffer_)
    (hlen : q'.length_ = t.length + log.length) (hmax : q'.max_size_ = q.max_size_)
    (hnul : q.buffer_ (t.length + log.length) = some 0) : Holds q' (t ++ log) := by
  have hcontents := Stores.contents_add_fill t.length (log.map some) q.buffer_
  rw [length_map] at hcontents
  have hout : ∀ w ∈ Stores.fill t.length (log.map some), w.1 ≠ t.length + log.length := by
    intro w hw
    have hlt := Stores.fst_of_mem_fill hw
    rw [length_map] at hlt
    omega
  constructor
  · rw [hlen, length_append]
  · rw [hmax, length_append]
    exact hin
  · rw [hbuf, length_append, hcontents, h.bytes, map_append]
  · rw [hbuf, length_append, Stores.after_of_notMem hout, hnul]

/-- **A CHARACTER** is appended with its NUL if there is room for both. -/
theorem append_char_iff (h : Holds q t) (hsize : Sized q) :
    (∃ q', q.append_char character = some q' ∧ Holds q' (t ++ [character])) ↔
      (t.length : ℤ) + 2 ≤ q.max_size_ := by
  have hmax : q.max_size_ ≤ 2 ^ 31 - 1 := hsize
  have hin := h.inside
  have hlen := h.length
  have hroom : q.room (q.length_ + 1) = q := by
    unfold room
    rw [if_neg (by omega)]
  have hsmall : int32 ((q.length_ : ℤ) + 1) = some ((q.length_ : ℤ) + 1) := int32_of_range (by omega) (by omega)
  unfold append_char
  rw [hsmall, bind_some, hroom]
  have hfirst : (Stores.fill q.length_ [some character]).Inside q.max_size_.toNat :=
    Stores.inside_fill.mpr (Or.inr (by rw [length_singleton]; omega))
  unfold store
  rw [if_pos hfirst, bind_some]
  by_cases hle : (t.length : ℤ) + 2 ≤ q.max_size_
  · have hsecond : (Stores.fill (q.length_ + 1) [some (0 : UInt8)]).Inside q.max_size_.toNat :=
      Stores.inside_fill.mpr (Or.inr (by rw [length_singleton]; omega))
    rw [if_pos hsecond]
    refine iff_of_true ⟨_, rfl, ?_, ?_, ?_, ?_⟩ hle
    · show q.length_ + 1 = _
      rw [hlen, length_append, length_singleton]
    · show ((t ++ [character]).length : ℤ) < q.max_size_
      rw [length_append, length_singleton]
      omega
    · -- the NUL is stored behind the character
      have hbehind : ∀ i < t.length + 1, ∀ w ∈ Stores.fill (q.length_ + 1) [some (0 : UInt8)], w.1 ≠ i := by
        intro i hi w hw
        have hge := Stores.fst_of_mem_fill hw
        omega
      show Stores.contents ((Stores.fill (q.length_ + 1) [some 0]).after _) _ = _
      rw [length_append, length_singleton,
        Stores.contents_congr fun i hi => Stores.after_of_notMem (hbehind i hi) _, hlen]
      have hcontents := Stores.contents_add_fill t.length [some character] q.buffer_
      rw [length_singleton] at hcontents
      rw [hcontents, h.bytes, map_append]
      rfl
    · show (Stores.fill (q.length_ + 1) [some 0]).after _ _ = some 0
      rw [length_append, length_singleton, hlen]
      exact Function.update_self _ _ _
  · have hout : ¬ (Stores.fill (q.length_ + 1) [some (0 : UInt8)]).Inside q.max_size_.toNat := by
      intro hin'
      rcases Stores.inside_fill.mp hin' with hnil | hfit
      · cases hnil
      · rw [length_singleton] at hfit
        omega
    rw [if_neg hout]
    exact iff_of_false (by rintro ⟨q', hq', -⟩; cases hq') hle

theorem lengthOf_eq (hgiven : len = -1 ∨ 0 ≤ len ∧ len ≤ str.length)
    (hle : ((appended str len).length : ℤ) ≤ INT32_MAX) : lengthOf str len = (appended str len).length := by
  have hmax : INT32_MAX = 2 ^ 31 - 1 := rfl
  unfold lengthOf
  unfold appended at hle ⊢
  by_cases hall : len = -1
  · rw [if_pos hall] at hle
    rw [if_pos hall, if_pos hall]
    exact Int.bmod_eq_of_le (by omega) (by omega)
  · rw [if_neg hall, if_neg hall, length_take]
    omega

/-- **A STRING** is appended with a NUL behind it if there is room for both and a NUL
    is left there. -/
theorem append_str_iff (h : Holds q t) (hsize : Sized q) (hstr : 0 ∉ str)
    (hgiven : len = -1 ∨ 0 ≤ len ∧ len ≤ str.length) :
    (∃ q', q.append_str str len = some q' ∧ Holds q' (t ++ appended str len)) ↔
      (t.length : ℤ) + (appended str len).length + 1 ≤ q.max_size_ ∧
        q.buffer_ (t.length + (appended str len).length) = some 0 := by
  have hmax : q.max_size_ ≤ 2 ^ 31 - 1 := hsize
  have hmax' : INT32_MAX = 2 ^ 31 - 1 := rfl
  have hlen := h.length
  constructor
  · rintro ⟨q', happend, h'⟩
    obtain ⟨stop, hstop, happend⟩ := bind_eq_some_iff.mp happend
    obtain ⟨-, rfl⟩ := int32_eq_some.mp hstop
    obtain ⟨size, hsum, happend⟩ := bind_eq_some_iff.mp happend
    obtain ⟨-, rfl⟩ := int32_eq_some.mp hsum
    split at happend
    case isFalse => cases happend
    case isTrue hnonneg =>
      obtain ⟨q₁, hstore, rfl⟩ := map_eq_some_iff.mp happend
      unfold store at hstore
      split at hstore
      case isFalse => cases hstore
      case isTrue hinside =>
        cases hstore
        -- the length says how much was stored
        have hcount : (q.room (q.length_ + lengthOf str len + 1)).length_ + (lengthOf str len).toNat
            = t.length + (appended str len).length := by
          rw [← length_append]
          exact h'.length
        rw [length_room] at hcount
        have hout : ∀ w ∈ Stores.fill q.length_ (strncpy (str.map some ++ [some 0]) (lengthOf str len).toNat),
            w.1 ≠ t.length + (appended str len).length := by
          intro w hw
          have hlt := Stores.fst_of_mem_fill hw
          rw [length_strncpy] at hlt
          omega
        have hnul := h'.nul
        rw [length_append] at hnul
        dsimp only at hnul
        rw [Stores.after_of_notMem hout] at hnul
        unfold room at hnul
        by_cases hgrow : (q.length_ : ℤ) + lengthOf str len + 1 > q.max_size_
        · -- nothing was written there in a new buffer
          have hnew : ∀ w ∈ Stores.fill 0 (strncpy (Stores.contents q.buffer_ q.length_) q.length_),
              w.1 ≠ t.length + (appended str len).length := by
            intro w hw
            have hlt := Stores.fst_of_mem_fill hw
            rw [length_strncpy] at hlt
            omega
          rw [if_pos hgrow] at hnul
          unfold growBuffer at hnul
          dsimp only at hnul
          rw [Stores.after_of_notMem hnew] at hnul
          cases hnul
        · rw [if_neg hgrow] at hnul
          exact ⟨by omega, hnul⟩
  · rintro ⟨hroom, hnul⟩
    have hsame := lengthOf_eq hgiven (by omega)
    have hfits : (appended str len).length ≤ str.length ∧ str.take (appended str len).length = appended str len := by
      unfold appended
      by_cases hall : len = -1
      · rw [if_pos hall]
        exact ⟨le_refl _, take_length⟩
      · rw [if_neg hall]
        refine ⟨length_take_le' _ _, ?_⟩
        rw [length_take, Nat.min_eq_left (by omega)]
    have hcopy := strncpy_of_le hstr hfits.1
    rw [hfits.2] at hcopy
    have hstay : q.room ((q.length_ : ℤ) + (appended str len).length + 1) = q := by
      unfold QStringBuffer.room
      rw [if_neg (by omega)]
    have hinside : (Stores.fill q.length_ ((appended str len).map some)).Inside q.max_size_.toNat :=
      Stores.inside_fill.mpr (Or.inr (by rw [length_map]; omega))
    unfold append_str
    dsimp only
    rw [hsame, int32_of_range (by omega) (by omega), bind_some, int32_of_range (by omega) (by omega),
      bind_some, if_pos (by omega), Int.toNat_natCast, hcopy, hstay]
    unfold store
    rw [if_pos hinside, map_some]
    refine ⟨_, rfl, ?_⟩
    refine h.fill (by omega) ?_ ?_ rfl hnul
    · show (Stores.fill q.length_ _).after q.buffer_ = _
      rw [hlen]
    · show q.length_ + _ = _
      rw [hlen]

theorem clear_holds (h : Holds q t) : ∃ q', q.clear = some q' ∧ Holds q' [] := by
  have hin := h.inside
  have hinside : (Stores.fill 0 [some (0 : UInt8)]).Inside q.max_size_.toNat :=
    Stores.inside_fill.mpr (Or.inr (by rw [length_singleton]; omega))
  unfold clear store
  rw [if_pos hinside, map_some]
  refine ⟨_, rfl, rfl, ?_, rfl, ?_⟩
  · show ((0 : ℕ) : ℤ) < q.max_size_
    omega
  · show Function.update q.buffer_ 0 (some 0) 0 = some 0
    exact Function.update_self _ _ _

/-! ## §4. The size. -/

theorem store_max_size {log : Stores (Option UInt8)} (h : q.store log = some q') :
    q'.max_size_ = q.max_size_ := by
  unfold store at h
  split at h
  · cases h
    rfl
  · cases h

variable {size : ℤ}

theorem room_sized (hsize : Sized q) (hle : size ≤ INT32_MAX) : Sized (q.room size) := by
  have hmax : INT32_MAX = 2 ^ 31 - 1 := rfl
  have hwrap : Int.bmod (2 * q.max_size_) (2 ^ 32) < (2 ^ 32 + 1) / 2 := Int.bmod_lt (by decide)
  unfold Sized room
  split
  · show (if _ < size then size else _) ≤ INT32_MAX
    split
    · exact hle
    · omega
  · exact hsize

theorem append_char_sized (h : q.append_char character = some q') (hsize : Sized q) : Sized q' := by
  obtain ⟨size, hint, h⟩ := bind_eq_some_iff.mp h
  obtain ⟨hrange, rfl⟩ := int32_eq_some.mp hint
  obtain ⟨q₁, hfirst, hsecond⟩ := bind_eq_some_iff.mp h
  have hroom := room_sized hsize hrange.2
  unfold Sized at hroom ⊢
  rw [store_max_size hsecond]
  show q₁.max_size_ ≤ INT32_MAX
  rw [store_max_size hfirst]
  exact hroom

theorem append_str_sized (h : q.append_str str len = some q') (hsize : Sized q) : Sized q' := by
  obtain ⟨stop, -, h⟩ := bind_eq_some_iff.mp h
  obtain ⟨size, hint, h⟩ := bind_eq_some_iff.mp h
  obtain ⟨hrange, rfl⟩ := int32_eq_some.mp hint
  split at h
  case isFalse => cases h
  case isTrue =>
    obtain ⟨q₁, hstore, rfl⟩ := map_eq_some_iff.mp h
    have hroom := room_sized hsize hrange.2
    show q₁.max_size_ ≤ INT32_MAX
    rw [store_max_size hstore]
    exact hroom

theorem clear_sized (h : q.clear = some q') (hsize : Sized q) : Sized q' := by
  obtain ⟨q₁, hstore, rfl⟩ := map_eq_some_iff.mp h
  show q₁.max_size_ ≤ INT32_MAX
  rw [store_max_size hstore]
  exact hsize

/-! ## §5. Histories. -/

theorem matched_checked_iff {x : Option QStringBuffer} {R : QStringBuffer → List UInt8 → Prop} :
    Matched R (checked x fun q => .ok ((), q)) (.ok ((), t)) ↔ ∃ q', x = some q' ∧ R q' t := by
  cases x with
  | none => exact iff_of_false not_matched_error_ok (by rintro ⟨q', hq', -⟩; cases hq')
  | some q' =>
    rw [checked_some, matched_ok_iff]
    constructor
    · intro h
      exact ⟨q', rfl, h.2⟩
    · rintro ⟨q₁, hq₁, hR⟩
      cases hq₁
      exact ⟨rfl, hR⟩

/-- **A CALL WITH ROOM**, and with a NUL where its string ends, does to the buffer
    what it does to the text. -/
theorem step_matched {l : Call} (h : Holds q t) (hsize : Sized q) (hgiven : l.Given) (hkeep : Keeps q t l) :
    Matched (fun q t => Holds q t ∧ Sized q) (step q l) (text t l) := by
  cases l with
  | append_char character =>
    obtain ⟨q', happend, h'⟩ := (append_char_iff h hsize).mpr hkeep
    show Matched _ (checked (q.append_char character) fun q => .ok ((), q)) (.ok ((), t ++ [character]))
    exact matched_checked_iff.mpr ⟨q', happend, h', append_char_sized happend hsize⟩
  | append_str str len =>
    obtain ⟨q', happend, h'⟩ := (append_str_iff h hsize hgiven.1 hgiven.2).mpr hkeep
    show Matched _ (checked (q.append_str str len) fun q => .ok ((), q)) (.ok ((), t ++ appended str len))
    exact matched_checked_iff.mpr ⟨q', happend, h', append_str_sized happend hsize⟩
  | clear =>
    obtain ⟨q', hclear, h'⟩ := clear_holds h
    show Matched _ (checked q.clear fun q => .ok ((), q)) (.ok ((), []))
    exact matched_checked_iff.mpr ⟨q', hclear, h', clear_sized hclear hsize⟩

/-- **ANY OTHER CALL** stores outside, or leaves no NUL. -/
theorem not_step_matched {l : Call} (h : Holds q t) (hsize : Sized q) (hgiven : l.Given)
    (hkeep : ¬ Keeps q t l) : ¬ Matched Holds (step q l) (text t l) := by
  intro hm
  cases l with
  | append_char character =>
    have hm' : Matched Holds (checked (q.append_char character) fun q => .ok ((), q))
        (.ok ((), t ++ [character])) := hm
    exact hkeep ((append_char_iff h hsize).mp (matched_checked_iff.mp hm'))
  | append_str str len =>
    have hm' : Matched Holds (checked (q.append_str str len) fun q => .ok ((), q))
        (.ok ((), t ++ appended str len)) := hm
    exact hkeep ((append_str_iff h hsize hgiven.1 hgiven.2).mp (matched_checked_iff.mp hm'))
  | clear => exact hkeep trivial

/-- A new buffer, if its size leaves room for the NUL. -/
theorem make_iff : (∃ q, make size = some q ∧ Holds q []) ↔ 0 ≤ size ∧ size < INT32_MAX := by
  have hmax : INT32_MAX = 2 ^ 31 - 1 := rfl
  unfold make store
  constructor
  · rintro ⟨q, hq, -⟩
    obtain ⟨max_size, hint, hq⟩ := bind_eq_some_iff.mp hq
    obtain ⟨hrange, rfl⟩ := int32_eq_some.mp hint
    dsimp only at hq
    split at hq
    case isFalse => cases hq
    case isTrue hinside =>
      have hle := hrange.2
      rcases Stores.inside_fill.mp hinside with hnil | hfit
      · cases hnil
      · rw [length_singleton] at hfit
        omega
  · rintro ⟨hpos, hlt⟩
    have hinside : (Stores.fill 0 [some (0 : UInt8)]).Inside (size + 1).toNat :=
      Stores.inside_fill.mpr (Or.inr (by rw [length_singleton]; omega))
    rw [int32_of_range (by omega) (by omega), bind_some]
    rw [if_pos hinside]
    refine ⟨_, rfl, rfl, ?_, rfl, ?_⟩
    · show ((0 : ℕ) : ℤ) < size + 1
      omega
    · show (Stores.fill 0 [some 0]).after (fun _ => none) 0 = some 0
      rfl

theorem make_sized (h : make size = some q) : Sized q := by
  obtain ⟨max_size, hint, h⟩ := bind_eq_some_iff.mp h
  obtain ⟨hrange, rfl⟩ := int32_eq_some.mp hint
  have hmax := store_max_size h
  unfold Sized
  rw [hmax]
  exact hrange.2

/-- A history on a new buffer: it is there, and holds the text after every call. -/
def Runs (size : ℤ) (ls : List Call) : Prop :=
  ∃ q, make size = some q ∧
    ∀ n, Matched Holds (history step q (ls.take n)) (history text [] (ls.take n))

/-- **THE BUFFER HOLDS ALL THAT WAS APPENDED** since the last `clear()`, terminated
    and inside its size, after every call of a history, exactly when the initial size
    leaves room for the NUL, each character finds room for itself and its NUL, and
    each string finds room and ends where a NUL was left before. -/
theorem history_holds_iff {size : ℤ} {ls : List Call} (hls : ∀ l ∈ ls, l.Given) :
    Runs size ls ↔
      0 ≤ size ∧ size < INT32_MAX ∧ ∃ q, make size = some q ∧ Framework.Calls step text Keeps q [] ls := by
  have hexact : ∀ q, Holds q [] → Sized q →
      ((∀ n, Matched Holds (history step q (ls.take n)) (history text [] (ls.take n))) ↔
        Framework.Calls step text Keeps q [] ls) := by
    intro q hR hI
    apply matched_iff_calls (G := fun _ _ l => l.Given) (fun q _ => Sized q) ?_ ?_ hR hI
      (Framework.Calls.of_forall hls)
    · intro q t l hR hI hgiven hkeep
      exact step_matched hR hI hgiven hkeep
    · intro q t l hR hI hgiven hkeep
      exact not_step_matched hR hI hgiven hkeep
  constructor
  · rintro ⟨q, hq, hm⟩
    have hstart : Holds q [] := (matched_ok_iff.mp (hm 0)).2
    obtain ⟨hpos, hlt⟩ := make_iff.mp ⟨q, hq, hstart⟩
    exact ⟨hpos, hlt, q, hq, (hexact q hstart (make_sized hq)).mp hm⟩
  · rintro ⟨hpos, hlt, q, hq, hcalls⟩
    obtain ⟨q', hq', hstart⟩ := make_iff.mpr ⟨hpos, hlt⟩
    rw [hq] at hq'
    cases hq'
    exact ⟨q, hq, (hexact q hstart (make_sized hq)).mpr hcalls⟩

/-- Characters and a string in four bytes; the string ends at the NUL of the first
    character. -/
theorem history_holds_3 : Runs 3 [.append_char 97, .clear, .append_str [99] (-1), .append_char 98] := by
  refine (history_holds_iff (by decide)).mpr ⟨by decide, by decide, _, rfl, ?_⟩
  decide

/-- A character at exact capacity: its NUL is stored behind the buffer. -/
theorem append_char_outside :
    ¬ ∀ (size : ℤ) (ls : List Call), 0 ≤ size → size < INT32_MAX → (∀ l ∈ ls, l.Given) → Runs size ls := by
  intro h
  obtain ⟨q, hq, hm⟩ := h 0 [.append_char 97] (by decide) (by decide) (by decide)
  have hlast := hm 1
  cases hq
  exact absurd hlast not_matched_error_ok

end Calls

end QStringBuffer

end KalavaPir.Common
