/-
  KalavaPir.Common.QSerializationReaders — the readers of `common/qserialization.h`,
  call by call.

  Here each reader also says where it has read, and the subtraction `data_len-pos`
  overflows for a position that is far below 0.  The readers of a string read the
  length in front of it, which moves the position, before they look at what is left.
-/
import KalavaPir.Common.Int64
import KalavaPir.Common.QSerialization

namespace KalavaPir.Common

open KalavaPir.Framework Option

namespace QSerialization

/-! ## §1. The readers (qserialization.h:27). -/

/-- What a reader leaves, and at which distances from `data` it has read. -/
structure Reading (α : Type) where
  got : Got α
  reads : List ℤ

/-- `-1`, with nothing read. -/
def refused {α : Type} (pos : ℤ) : Reading α := ⟨⟨-1, pos, none⟩, []⟩

/-- The `n` distances from `pos` on. -/
def span (pos : ℤ) (n : ℕ) : List ℤ := (List.range n).map fun i => pos + (i : ℕ)

/-- `get_int8`, `get_int16`, `get_int32` and `get_int64`; `value` is whether the pointer
    is not NULL, and `number` makes a number of the bytes. -/
def getIntAt (n : ℕ) (number : List UInt8 → ℤ) (data : Option Memory) (data_len pos : ℤ) (value : Bool) :
    Option (Reading ℤ) :=
  match data with
  | none => some (refused pos)
  | some mem =>
    if value then
      (int64 (data_len - pos)).map fun left =>
        if left ≥ (n : ℤ) ∧ pos ≥ 0 then ⟨⟨0, pos + n, some (number (mem.read pos.toNat n))⟩, span pos n⟩
        else refused pos
    else some (refused pos)

/-- The bytes shifted together, the last one first. -/
def shifted (n : ℕ) (bs : List UInt8) : ℤ := bs.foldr (shiftIn (8 * n)) 0

/-- The readers of the integers, with what they touch. -/
def get_int8At := getIntAt 1 decodeInt
def get_int16At := getIntAt 2 (shifted 2)
def get_int32At := getIntAt 4 (shifted 4)
def get_int64At := getIntAt 8 (shifted 8)

/-- `get_bytes`; `buf` is whether the pointer is not NULL. -/
def get_bytesAt (data : Option Memory) (data_len pos : ℤ) (buf : Bool) (buf_length : ℤ) :
    Option (Reading (List UInt8)) :=
  match data with
  | none => some (refused pos)
  | some mem =>
    if buf ∧ buf_length > 0 then
      (int64 (data_len - pos)).map fun left =>
        if left ≥ buf_length ∧ pos ≥ 0 then
          ⟨⟨0, pos + buf_length, some (mem.read pos.toNat buf_length.toNat)⟩, span pos buf_length.toNat⟩
        else refused pos
    else some (refused pos)

/-- `get_string` of a `char*`; `str` is whether the pointer is not NULL. -/
def get_stringToAt (data : Option Memory) (data_len pos str_buf_length : ℤ) (str : Bool) :
    Option (Reading (List UInt8 × ℤ)) :=
  match data with
  | none => some (refused pos)
  | some mem =>
    (int64 (data_len - pos)).bind fun left =>
      if left ≥ 4 ∧ pos ≥ 0 ∧ str ∧ str_buf_length > 0 then
        (get_int32At (some mem) data_len pos true).bind fun r =>
          match r.got with
          | ⟨iret, pos, none⟩ => some ⟨⟨iret, pos, some ([0], 0)⟩, r.reads⟩
          | ⟨_, pos, some length⟩ =>
            if length > 0 then
              if length ≤ str_buf_length then
                (int64 (data_len - pos)).map fun left =>
                  if left ≥ length then
                    ⟨⟨0, pos + length, some (mem.read pos.toNat length.toNat, length - 1)⟩,
                      r.reads ++ span pos length.toNat⟩
                  else ⟨⟨-3, pos, some ([0], 0)⟩, r.reads⟩
              else some ⟨⟨-2, pos, some ([0], 0)⟩, r.reads⟩
            else some ⟨⟨0, pos, some ([0], 0)⟩, r.reads⟩
      else some (refused pos)

/-- `get_string` of a `std::string`. -/
def get_stringAt (data : Option Memory) (data_len pos : ℤ) : Option (Reading (List UInt8)) :=
  match data with
  | none => some (refused pos)
  | some mem =>
    (int64 (data_len - pos)).bind fun left =>
      if left ≥ 4 ∧ pos ≥ 0 then
        (get_int32At (some mem) data_len pos true).bind fun r =>
          match r.got with
          | ⟨iret, pos, none⟩ => some ⟨⟨iret, pos, none⟩, r.reads⟩
          | ⟨_, pos, some length⟩ =>
            if length > 0 then
              (int64 (data_len - pos)).map fun left =>
                if left ≥ length then
                  ⟨⟨0, pos + length, some (mem.read pos.toNat (length - 1).toNat)⟩,
                    r.reads ++ span pos (length - 1).toNat⟩
                else ⟨⟨-2, pos, none⟩, r.reads⟩
            else some ⟨⟨0, pos, some []⟩, r.reads⟩
      else some (refused pos)

/-- The calls; a flag says that a pointer is not NULL. -/
inductive Reader
  | get_int8 (value : Bool)
  | get_int16 (value : Bool)
  | get_int32 (value : Bool)
  | get_int64 (value : Bool)
  | get_bytes (buf : Bool) (buf_length : ℤ)
  | get_stringTo (str_buf_length : ℤ) (str : Bool)
  | get_string

/-- What a call returns and where it leaves the position, and where it has read. -/
structure Outcome where
  iret : ℤ
  pos : ℤ
  reads : List ℤ
  deriving DecidableEq

/-- All but the value. -/
def Reading.outcome {α : Type} (r : Reading α) : Outcome := ⟨r.got.iret, r.got.pos, r.reads⟩

/-- A call. -/
def Reader.call (data : Option Memory) (data_len pos : ℤ) : Reader → Option Outcome
  | .get_int8 value => (get_int8At data data_len pos value).map Reading.outcome
  | .get_int16 value => (get_int16At data data_len pos value).map Reading.outcome
  | .get_int32 value => (get_int32At data data_len pos value).map Reading.outcome
  | .get_int64 value => (get_int64At data data_len pos value).map Reading.outcome
  | .get_bytes buf buf_length => (get_bytesAt data data_len pos buf buf_length).map Reading.outcome
  | .get_stringTo str_buf_length str => (get_stringToAt data data_len pos str_buf_length str).map Reading.outcome
  | .get_string => (get_stringAt data data_len pos).map Reading.outcome

/-! ## §2. Bounded and atomic. -/

/-- The length in front of a string. -/
def lengthAt (mem : Memory) (pos : ℤ) : ℤ := decodeInt (mem.read pos.toNat 4)

/-- The encoded length of the value at a position: that of its type, that which is
    asked for, or that of the length in front of a string and what it counts. -/
def Reader.encoded (mem : Memory) (pos : ℤ) : Reader → ℤ
  | .get_int8 _ => 1
  | .get_int16 _ => 2
  | .get_int32 _ => 4
  | .get_int64 _ => 8
  | .get_bytes _ buf_length => buf_length
  | .get_stringTo _ _ => 4 + max 0 (lengthAt mem pos)
  | .get_string => 4 + max 0 (lengthAt mem pos)

/-- **BOUNDED AND ATOMIC**: nothing is read outside `data[pos, data_len)`; a success
    moves the position behind the value and inside the array, a failure leaves it. -/
structure Atomic (data_len pos encoded : ℤ) (o : Outcome) : Prop where
  reads : ∀ i ∈ o.reads, pos ≤ i ∧ i < data_len
  success : o.iret = 0 → o.pos = pos + encoded ∧ 0 ≤ o.pos ∧ o.pos ≤ data_len
  failure : o.iret ≠ 0 → o.pos = pos

/-- The bytes that are left can be counted. -/
def Counts (data_len pos : ℤ) : Prop := data_len - pos ≤ INT64_MAX

instance (data_len pos : ℤ) : Decidable (Counts data_len pos) := inferInstanceAs (Decidable (_ ≤ _))

/-- The length in front of a string is read. -/
def HasLength (data_len pos : ℤ) : Prop := 0 ≤ pos ∧ 4 ≤ data_len - pos

/-- Nothing overflows, and what a string counts is there and has room. -/
def Reader.Meets (mem : Memory) (data_len pos : ℤ) : Reader → Prop
  | .get_int8 value => value = true → Counts data_len pos
  | .get_int16 value => value = true → Counts data_len pos
  | .get_int32 value => value = true → Counts data_len pos
  | .get_int64 value => value = true → Counts data_len pos
  | .get_bytes buf buf_length => buf = true ∧ 0 < buf_length → Counts data_len pos
  | .get_stringTo str_buf_length str =>
    Counts data_len pos ∧
      (HasLength data_len pos ∧ str = true ∧ 0 < str_buf_length →
        lengthAt mem pos ≤ str_buf_length ∧ max 0 (lengthAt mem pos) ≤ data_len - (pos + 4))
  | .get_string =>
    Counts data_len pos ∧
      (HasLength data_len pos → max 0 (lengthAt mem pos) ≤ data_len - (pos + 4))

/-! ## §3. Numbers and bytes. -/

section Readers

variable {α : Type} {mem : Memory} {data : Option Memory} {data_len pos encoded : ℤ} {n : ℕ}
  {number : List UInt8 → ℤ} {value : Bool}

/-- A position of an array, and any position. -/
structure InRange (data_len pos : ℤ) : Prop where
  data_len_nonneg : 0 ≤ data_len
  data_len_le : data_len ≤ INT64_MAX
  pos : IsInt64 pos

theorem isInt64_left (h : InRange data_len pos) : IsInt64 (data_len - pos) ↔ Counts data_len pos := by
  have hlen := h.data_len_nonneg
  have hpos := isInt64_iff.mp h.pos
  have hmax : INT64_MAX = 2 ^ 63 - 1 := rfl
  rw [isInt64_iff]
  unfold Counts
  omega

theorem mem_span {i : ℤ} (h : i ∈ span pos n) : pos ≤ i ∧ i < pos + n := by
  obtain ⟨k, hk, rfl⟩ := List.mem_map.mp h
  have hlt := List.mem_range.mp hk
  omega

theorem atomic_refused (α : Type) (data_len pos encoded : ℤ) :
    Atomic data_len pos encoded (refused pos : Reading α).outcome := by
  constructor
  · intro i hi
    exact absurd hi List.not_mem_nil
  · intro h
    exact absurd h (by decide : ¬ (-1 : ℤ) = 0)
  · intro _
    rfl

variable {v : Option α}

variable {reads : List ℤ}

theorem atomic_success (hpos : 0 ≤ pos) (hfit : encoded ≤ data_len - pos) (hnonneg : 0 ≤ encoded)
    (hreads : ∀ i ∈ reads, pos ≤ i ∧ i < pos + encoded) :
    Atomic data_len pos encoded (⟨⟨0, pos + encoded, v⟩, reads⟩ : Reading α).outcome := by
  constructor
  · intro i hi
    have hin := hreads i hi
    omega
  · intro _
    show pos + encoded = _ ∧ 0 ≤ pos + encoded ∧ pos + encoded ≤ data_len
    omega
  · intro h
    exact absurd rfl h

theorem exists_left_iff {body : ℤ → Reading α} (h : InRange data_len pos) (hbody : ∀ left, left = data_len - pos →
    Atomic data_len pos encoded (body left).outcome) :
    (∃ r, (int64 (data_len - pos)).map body = some r ∧ Atomic data_len pos encoded r.outcome) ↔
      Counts data_len pos := by
  by_cases hcounts : Counts data_len pos
  · rw [int64_of_isInt64 ((isInt64_left h).mpr hcounts), map_some]
    exact iff_of_true ⟨_, rfl, hbody _ rfl⟩ hcounts
  · rw [int64_of_not fun hin => hcounts ((isInt64_left h).mp hin), map_none]
    exact iff_of_false (by rintro ⟨r, hr, -⟩; cases hr) hcounts

/-- **A NUMBER.** -/
theorem getIntAt_atomic_iff (h : InRange data_len pos) :
    (∃ r, getIntAt n number (some mem) data_len pos value = some r ∧ Atomic data_len pos n r.outcome) ↔
      (value = true → Counts data_len pos) := by
  unfold getIntAt
  cases value with
  | false => exact iff_of_true ⟨_, rfl, atomic_refused ℤ data_len pos n⟩ nofun
  | true =>
    dsimp only
    rw [if_pos rfl, exists_left_iff h]
    · exact ⟨fun hc _ => hc, fun hc => hc rfl⟩
    · rintro left rfl
      split
      case isTrue hle => exact atomic_success hle.2 hle.1 (by omega) fun i hi => mem_span hi
      case isFalse => exact atomic_refused ℤ data_len pos n

/-- **BYTES.** -/
theorem get_bytesAt_atomic_iff (h : InRange data_len pos) {buf : Bool} {buf_length : ℤ} :
    (∃ r, get_bytesAt (some mem) data_len pos buf buf_length = some r ∧
      Atomic data_len pos buf_length r.outcome) ↔ (buf = true ∧ 0 < buf_length → Counts data_len pos) := by
  unfold get_bytesAt
  dsimp only
  by_cases hasked : buf = true ∧ buf_length > 0
  · have hnonneg : 0 ≤ buf_length := le_of_lt hasked.2
    rw [if_pos hasked, exists_left_iff h]
    · exact ⟨fun hc _ => hc, fun hc => hc hasked⟩
    · rintro left rfl
      split
      case isTrue hle =>
        refine atomic_success hle.2 hle.1 hnonneg fun i hi => ?_
        have hin := mem_span hi
        rw [Int.toNat_of_nonneg hnonneg] at hin
        exact hin
      case isFalse => exact atomic_refused (List UInt8) data_len pos buf_length
  · rw [if_neg hasked]
    exact iff_of_true ⟨_, rfl, atomic_refused (List UInt8) data_len pos buf_length⟩ fun hc => absurd hc hasked

/-! ## §4. Strings. -/

theorem shifted_lengthAt (mem : Memory) (pos : ℤ) : shifted 4 (mem.read pos.toNat 4) = lengthAt mem pos := by
  unfold shifted lengthAt decodeInt
  rw [foldr_shiftIn (Or.inr (Or.inl rfl)), Memory.length_read]
  rfl

theorem get_int32At_length (hcounts : Counts data_len pos) (h : InRange data_len pos)
    (hhas : HasLength data_len pos) :
    get_int32At (some mem) data_len pos true = some ⟨⟨0, pos + 4, some (lengthAt mem pos)⟩, span pos 4⟩ := by
  have hleft : data_len - pos ≥ ((4 : ℕ) : ℤ) ∧ pos ≥ 0 := ⟨hhas.2, hhas.1⟩
  unfold get_int32At getIntAt
  dsimp only
  rw [if_pos rfl, int64_of_isInt64 ((isInt64_left h).mpr hcounts), map_some, if_pos hleft, shifted_lengthAt]
  rfl

theorem int64_behind (h : InRange data_len pos) (hhas : HasLength data_len pos) :
    int64 (data_len - (pos + 4)) = some (data_len - (pos + 4)) := by
  have hmax : INT64_MAX = 2 ^ 63 - 1 := rfl
  have hle := h.data_len_le
  have hpos := hhas.1
  have hleft := hhas.2
  exact int64_of_isInt64 (isInt64_iff.mpr (by omega))

variable (mem) in
theorem atomic_string {k : ℕ} (hhas : HasLength data_len pos)
    (hfit : max 0 (lengthAt mem pos) ≤ data_len - (pos + 4)) (hk : (k : ℤ) ≤ max 0 (lengthAt mem pos)) :
    Atomic data_len pos (4 + max 0 (lengthAt mem pos))
      (⟨⟨0, pos + 4 + max 0 (lengthAt mem pos), v⟩, span pos 4 ++ span (pos + 4) k⟩ : Reading α).outcome := by
  have hpos := hhas.1
  rw [Int.add_assoc]
  refine atomic_success hpos (by omega) (by omega) fun i hi => ?_
  rcases List.mem_append.mp hi with hin | hin
  · have hlt := mem_span hin
    omega
  · have hlt := mem_span hin
    omega

theorem not_atomic_moved {iret : ℤ} (hiret : iret ≠ 0) :
    ¬ Atomic data_len pos encoded (⟨⟨iret, pos + 4, v⟩, reads⟩ : Reading α).outcome := by
  intro h
  have hpos : pos + 4 = pos := h.failure hiret
  omega

/-- **A `std::string`.** -/
theorem get_stringAt_atomic_iff (h : InRange data_len pos) :
    (∃ r, get_stringAt (some mem) data_len pos = some r ∧
      Atomic data_len pos (4 + max 0 (lengthAt mem pos)) r.outcome) ↔
      Counts data_len pos ∧ (HasLength data_len pos → max 0 (lengthAt mem pos) ≤ data_len - (pos + 4)) := by
  unfold get_stringAt
  dsimp only
  by_cases hcounts : Counts data_len pos
  · rw [int64_of_isInt64 ((isInt64_left h).mpr hcounts), bind_some, and_iff_right hcounts]
    by_cases hhas : HasLength data_len pos
    · have hleft : data_len - pos ≥ 4 ∧ pos ≥ 0 := ⟨hhas.2, hhas.1⟩
      rw [if_pos hleft, get_int32At_length hcounts h hhas, bind_some]
      dsimp only
      by_cases hlen : lengthAt mem pos > 0
      · have hmax : max 0 (lengthAt mem pos) = lengthAt mem pos := max_eq_right (le_of_lt hlen)
        rw [if_pos hlen, int64_behind h hhas, map_some]
        by_cases hfit : data_len - (pos + 4) ≥ lengthAt mem pos
        · rw [if_pos hfit]
          refine iff_of_true ⟨_, rfl, ?_⟩ fun _ => by rw [hmax]; exact hfit
          have hall := atomic_string mem (v := some (mem.read (pos + 4).toNat (lengthAt mem pos - 1).toNat))
            (k := (lengthAt mem pos - 1).toNat) hhas (by rw [hmax]; exact hfit) (by rw [hmax]; omega)
          rw [hmax] at hall ⊢
          exact hall
        · rw [if_neg hfit]
          refine iff_of_false ?_ fun hc => hfit (by rw [← hmax]; exact hc hhas)
          rintro ⟨r, hr, hatomic⟩
          cases hr
          exact not_atomic_moved (by decide) hatomic
      · have hmax : max 0 (lengthAt mem pos) = 0 := max_eq_left (not_lt.mp hlen)
        rw [if_neg hlen, hmax]
        refine iff_of_true ⟨_, rfl, ?_⟩ fun _ => by have hleft := hhas.2; omega
        have hall := atomic_string mem (v := some ([] : List UInt8)) (k := 0) hhas
          (by rw [hmax]; have hleft := hhas.2; omega) (by rw [hmax]; rfl)
        rw [hmax, Int.add_zero (pos + 4)] at hall
        exact hall
    · have hleft : ¬ (data_len - pos ≥ 4 ∧ pos ≥ 0) := fun hin => hhas ⟨hin.2, hin.1⟩
      rw [if_neg hleft]
      exact iff_of_true ⟨_, rfl, atomic_refused (List UInt8) _ _ _⟩ fun hin => absurd hin hhas
  · rw [int64_of_not fun hin => hcounts ((isInt64_left h).mp hin), bind_none]
    exact iff_of_false (by rintro ⟨r, hr, -⟩; cases hr) fun hc => hcounts hc.1

/-- **A `char*`.** -/
theorem get_stringToAt_atomic_iff (h : InRange data_len pos) {str_buf_length : ℤ} {str : Bool} :
    (∃ r, get_stringToAt (some mem) data_len pos str_buf_length str = some r ∧
      Atomic data_len pos (4 + max 0 (lengthAt mem pos)) r.outcome) ↔ Counts data_len pos ∧
        (HasLength data_len pos ∧ str = true ∧ 0 < str_buf_length →
          lengthAt mem pos ≤ str_buf_length ∧ max 0 (lengthAt mem pos) ≤ data_len - (pos + 4)) := by
  unfold get_stringToAt
  dsimp only
  by_cases hcounts : Counts data_len pos
  · rw [int64_of_isInt64 ((isInt64_left h).mpr hcounts), bind_some, and_iff_right hcounts]
    by_cases hasked : HasLength data_len pos ∧ str = true ∧ 0 < str_buf_length
    · obtain ⟨hhas, hstr, hbuf⟩ := hasked
      have hleft : data_len - pos ≥ 4 ∧ pos ≥ 0 ∧ str = true ∧ str_buf_length > 0 := ⟨hhas.2, hhas.1, hstr, hbuf⟩
      rw [if_pos hleft, get_int32At_length hcounts h hhas, bind_some]
      dsimp only
      by_cases hlen : lengthAt mem pos > 0
      · have hmax : max 0 (lengthAt mem pos) = lengthAt mem pos := max_eq_right (le_of_lt hlen)
        rw [if_pos hlen]
        by_cases hroom : lengthAt mem pos ≤ str_buf_length
        · rw [if_pos hroom, int64_behind h hhas, map_some]
          by_cases hfit : data_len - (pos + 4) ≥ lengthAt mem pos
          · rw [if_pos hfit]
            refine iff_of_true ⟨_, rfl, ?_⟩ fun _ => ⟨hroom, by rw [hmax]; exact hfit⟩
            have hall := atomic_string mem (v := some (mem.read (pos + 4).toNat (lengthAt mem pos).toNat, lengthAt mem pos - 1))
              (k := (lengthAt mem pos).toNat) hhas (by rw [hmax]; exact hfit) (by rw [hmax]; omega)
            rw [hmax] at hall ⊢
            exact hall
          · rw [if_neg hfit]
            refine iff_of_false ?_ fun hc => hfit (by rw [← hmax]; exact (hc ⟨hhas, hstr, hbuf⟩).2)
            rintro ⟨r, hr, hatomic⟩
            cases hr
            exact not_atomic_moved (by decide) hatomic
        · rw [if_neg hroom]
          refine iff_of_false ?_ fun hc => hroom (hc ⟨hhas, hstr, hbuf⟩).1
          rintro ⟨r, hr, hatomic⟩
          cases hr
          exact not_atomic_moved (by decide) hatomic
      · have hmax : max 0 (lengthAt mem pos) = 0 := max_eq_left (not_lt.mp hlen)
        rw [if_neg hlen, hmax]
        refine iff_of_true ⟨_, rfl, ?_⟩ fun _ => ⟨by omega, by have hleft := hhas.2; omega⟩
        have hall := atomic_string mem (v := some (([0], 0) : List UInt8 × ℤ)) (k := 0) hhas
          (by rw [hmax]; have hleft := hhas.2; omega) (by rw [hmax]; rfl)
        rw [hmax, Int.add_zero (pos + 4)] at hall
        exact hall
    · have hleft : ¬ (data_len - pos ≥ 4 ∧ pos ≥ 0 ∧ str = true ∧ str_buf_length > 0) := fun hin =>
        hasked ⟨⟨hin.2.1, hin.1⟩, hin.2.2.1, hin.2.2.2⟩
      rw [if_neg hleft]
      exact iff_of_true ⟨_, rfl, atomic_refused (List UInt8 × ℤ) _ _ _⟩ fun hin => absurd hin hasked
  · rw [int64_of_not fun hin => hcounts ((isInt64_left h).mp hin), bind_none]
    exact iff_of_false (by rintro ⟨r, hr, -⟩; cases hr) fun hc => hcounts hc.1

/-! ## §5. Any reader. -/

theorem exists_outcome_iff {x : Option (Reading α)} {P : Outcome → Prop} :
    (∃ o, x.map Reading.outcome = some o ∧ P o) ↔ ∃ r, x = some r ∧ P r.outcome := by
  constructor
  · rintro ⟨o, ho, hP⟩
    obtain ⟨r, hr, rfl⟩ := map_eq_some_iff.mp ho
    exact ⟨r, hr, hP⟩
  · rintro ⟨r, hr, hP⟩
    exact ⟨r.outcome, by rw [hr, map_some], hP⟩

/-- **A READER IS BOUNDED AND ATOMIC**, at any position of any bytes, exactly when the
    bytes that are left can be counted in an `int64_t` and a string that is read has
    room and is all there. -/
theorem call_atomic_iff (c : Reader) (mem : Memory) (h : InRange data_len pos) :
    (∃ o, c.call (some mem) data_len pos = some o ∧ Atomic data_len pos (c.encoded mem pos) o) ↔
      c.Meets mem data_len pos := by
  cases c with
  | get_int8 value => exact exists_outcome_iff.trans (getIntAt_atomic_iff h)
  | get_int16 value => exact exists_outcome_iff.trans (getIntAt_atomic_iff h)
  | get_int32 value => exact exists_outcome_iff.trans (getIntAt_atomic_iff h)
  | get_int64 value => exact exists_outcome_iff.trans (getIntAt_atomic_iff h)
  | get_bytes buf buf_length => exact exists_outcome_iff.trans (get_bytesAt_atomic_iff h)
  | get_stringTo str_buf_length str => exact exists_outcome_iff.trans (get_stringToAt_atomic_iff h)
  | get_string => exact exists_outcome_iff.trans (get_stringAt_atomic_iff h)

/-- A string of one character at the beginning of six bytes. -/
theorem get_string_six :
    ∃ o, Reader.get_string.call (some fun i => [2, 0, 0, 0, 97, 0].getD i 0) 6 0 = some o ∧
      Atomic 6 0 (Reader.get_string.encoded (fun i => [2, 0, 0, 0, 97, 0].getD i 0) 0) o :=
  (call_atomic_iff .get_string _ ⟨by decide, by decide, by decide⟩).mpr
    ⟨by decide, fun _ => by decide⟩

/-- A length with nothing behind it is read all the same, and the position moved. -/
theorem get_string_moved :
    ¬ ∀ (c : Reader) (mem : Memory) (data_len pos : ℤ), InRange data_len pos →
      ∃ o, c.call (some mem) data_len pos = some o ∧ Atomic data_len pos (c.encoded mem pos) o := by
  intro h
  obtain ⟨o, ho, hatomic⟩ := h .get_string (fun i => [1, 0, 0, 0].getD i 0) 4 0 ⟨by decide, by decide, by decide⟩
  have hcall : Reader.get_string.call (some fun i => [1, 0, 0, 0].getD i 0) 4 0
      = some ⟨-2, 4, [0, 1, 2, 3]⟩ := by decide
  rw [hcall] at ho
  cases ho
  exact absurd (hatomic.failure (by decide)) (by decide)

/-! ## §6. The readers without an overflow. -/

section

variable (hcounts : Counts data_len pos)
include hcounts

/-- Without an overflow the results are those of the readers of
    `KalavaPir.Common.QSerialization`. -/
theorem getIntAt_got (h : InRange data_len pos) :
    (getIntAt n (shifted n) (some mem) data_len pos true).map Reading.got = some (getInt n (some mem) data_len pos) := by
  unfold getIntAt getInt
  dsimp only
  rw [if_pos rfl, int64_of_isInt64 ((isInt64_left h).mpr hcounts), map_some, map_some]
  split
  · rfl
  · rfl

theorem get_bytesAt_got (h : InRange data_len pos) (buf_length : ℤ) :
    (get_bytesAt (some mem) data_len pos true buf_length).map Reading.got
      = some (get_bytes (some mem) data_len pos buf_length) := by
  unfold get_bytesAt get_bytes
  dsimp only
  by_cases hlen : buf_length > 0
  · rw [if_pos ⟨rfl, hlen⟩, int64_of_isInt64 ((isInt64_left h).mpr hcounts), map_some, map_some]
    by_cases hle : data_len - pos ≥ buf_length ∧ pos ≥ 0
    · rw [if_pos hle, if_pos ⟨hlen, hle⟩]
    · rw [if_neg hle, if_neg fun hall => hle hall.2]
      rfl
  · rw [if_neg fun hall => hlen hall.2, if_neg fun hall => hlen hall.1]
    rfl

/-- … and of a string. -/
theorem get_stringAt_got (h : InRange data_len pos) :
    (get_stringAt (some mem) data_len pos).map Reading.got = some (get_string (some mem) data_len pos) := by
  unfold get_stringAt get_string
  dsimp only
  rw [int64_of_isInt64 ((isInt64_left h).mpr hcounts), bind_some]
  by_cases hleft : data_len - pos ≥ 4 ∧ pos ≥ 0
  · have hhas : HasLength data_len pos := ⟨hleft.2, hleft.1⟩
    have hint : get_int32 (some mem) data_len pos = ⟨0, pos + 4, some (lengthAt mem pos)⟩ := by
      rw [← shifted_lengthAt]
      exact if_pos hleft
    rw [if_pos hleft, if_pos hleft, get_int32At_length hcounts h hhas, hint, bind_some]
    dsimp only
    by_cases hlen : lengthAt mem pos > 0
    · rw [if_pos hlen, if_pos hlen, int64_behind h hhas, map_some, map_some]
      split
      · rfl
      · rfl
    · rw [if_neg hlen, if_neg hlen]
      rfl
  · rw [if_neg hleft, if_neg hleft]
    rfl

theorem get_stringToAt_got (h : InRange data_len pos) (str_buf_length : ℤ) :
    (get_stringToAt (some mem) data_len pos str_buf_length true).map Reading.got
      = some (get_stringTo (some mem) data_len pos str_buf_length) := by
  unfold get_stringToAt get_stringTo
  dsimp only
  rw [int64_of_isInt64 ((isInt64_left h).mpr hcounts), bind_some]
  by_cases hleft : data_len - pos ≥ 4 ∧ pos ≥ 0 ∧ str_buf_length > 0
  · obtain ⟨hfour, hpos, hbuf⟩ := hleft
    have hhas : HasLength data_len pos := ⟨hpos, hfour⟩
    have hint : get_int32 (some mem) data_len pos = ⟨0, pos + 4, some (lengthAt mem pos)⟩ := by
      rw [← shifted_lengthAt]
      exact if_pos ⟨hfour, hpos⟩
    rw [if_pos ⟨hfour, hpos, rfl, hbuf⟩, if_pos ⟨hfour, hpos, hbuf⟩, get_int32At_length hcounts h hhas, hint,
      bind_some]
    dsimp only
    by_cases hlen : lengthAt mem pos > 0
    · rw [if_pos hlen, if_pos hlen]
      by_cases hroom : lengthAt mem pos ≤ str_buf_length
      · rw [if_pos hroom, if_pos hroom, int64_behind h hhas, map_some, map_some]
        split
        · rfl
        · rfl
      · rw [if_neg hroom, if_neg hroom]
        rfl
    · rw [if_neg hlen, if_neg hlen]
      rfl
  · rw [if_neg hleft, if_neg fun hall => hleft ⟨hall.1, hall.2.1, hall.2.2.2⟩]
    rfl

end

end Readers

end QSerialization

end KalavaPir.Common
