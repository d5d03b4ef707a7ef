/-
  KalavaPir.Common.QSerialization — values in bytes,
  `common/qserialization.h`.

  A function gets the memory behind its pointer (`none` for NULL), how many
  bytes of it count, and a position, which it moves.  Numbers are stored with
  their least significant byte first; a string is stored as its length with the
  NUL, and its bytes with the NUL, the empty one as the length 0 alone.  The
  pointers a result is stored through are not NULL.

  `set_string` of a `std::string` is left out, `QDataStream` calls the other one
  for both.
-/
import KalavaPir.Framework.ByteFile
import KalavaPir.Framework.Memory
import Mathlib.Data.List.TakeWhile

namespace KalavaPir.Common

open KalavaPir.Framework List Int

namespace QSerialization

/-! ## §1. Writing. -/

/-- What a `set_*` function returns, the position and the memory after it. -/
structure Put where
  iret : ℤ
  pos : ℤ
  data : Option Memory

/-- A number of `n` bytes. -/
def setInt (n : ℕ) (data : Option Memory) (data_len pos value : ℤ) : Put :=
  match data with
  | none => ⟨-1, pos, none⟩
  | some mem =>
    if data_len - pos ≥ n ∧ pos ≥ 0 then ⟨0, pos + n, some (mem.write pos.toNat (encodeInt n value))⟩
    else ⟨-1, pos, some mem⟩

/-- The writers of the integers. -/
def set_int8 := setInt 1
def set_int16 := setInt 2
def set_int32 := setInt 4
def set_int64 := setInt 8

/-- Bytes are written as they are. -/
def set_bytes (data : Option Memory) (data_len pos : ℤ) (buf : List UInt8) : Put :=
  match data with
  | none => ⟨-1, pos, none⟩
  | some mem =>
    if 0 < buf.length ∧ data_len - pos ≥ buf.length ∧ pos ≥ 0 then
      ⟨0, pos + buf.length, some (mem.write pos.toNat buf)⟩
    else ⟨-1, pos, some mem⟩

/-- What `strlen` counts. -/
def cstr (str : List UInt8) : List UInt8 := str.takeWhile (· != 0)

/-- How many bytes a string takes. -/
def get_string_length (str : List UInt8) : ℕ := if str = [] then 4 else str.length + 4 + 1

/-- `set_string(…, const char* str)` -/
def set_string (data : Option Memory) (data_len pos : ℤ) (str : List UInt8) : Put :=
  match data with
  | none => ⟨-1, pos, none⟩
  | some mem =>
    if pos < data_len ∧ pos ≥ 0 then
      let length : ℕ := if (cstr str).length = 0 then 0 else (cstr str).length + 1
      if data_len - pos ≥ length + 4 then
        let head := set_int32 (some mem) data_len pos length
        if head.iret = 0 ∧ 0 < length then
          { head with
            pos := head.pos + length
            data := head.data.map fun mem =>
              (mem.write head.pos.toNat (cstr str)).write (head.pos.toNat + (length - 1)) [0] }
        else head
      else ⟨-1, pos, some mem⟩
    else ⟨-1, pos, some mem⟩

/-! ## §2. Reading. -/

/-- What a `get_*` function returns, the position, and what it stored; a number
    is stored if and only if 0 is returned. -/
structure Got (α : Type) where
  iret : ℤ
  pos : ℤ
  value : Option α

/-- A byte is read, with its sign. -/
def get_int8 (data : Option Memory) (data_len pos : ℤ) : Got ℤ :=
  match data with
  | none => ⟨-1, pos, none⟩
  | some mem =>
    if data_len - pos ≥ 1 ∧ pos ≥ 0 then ⟨0, pos + 1, some (decodeInt [mem pos.toNat])⟩
    else ⟨-1, pos, none⟩

/-- `*value<<=8; *value|=byte;`, where the low byte of the shifted value is 0. -/
def shiftIn (bits : ℕ) (byte : UInt8) (value : ℤ) : ℤ := Int.bmod (value * 256) (2 ^ bits) + byte.toNat

/-- A number of `n` bytes, the last byte first. -/
def getInt (n : ℕ) (data : Option Memory) (data_len pos : ℤ) : Got ℤ :=
  match data with
  | none => ⟨-1, pos, none⟩
  | some mem =>
    if data_len - pos ≥ n ∧ pos ≥ 0 then
      ⟨0, pos + n, some ((mem.read pos.toNat n).foldr (shiftIn (8 * n)) 0)⟩
    else ⟨-1, pos, none⟩

/-- The readers of the other integers. -/
def get_int16 := getInt 2
def get_int32 := getInt 4
def get_int64 := getInt 8

/-- `buf_length` bytes are read. -/
def get_bytes (data : Option Memory) (data_len pos buf_length : ℤ) : Got (List UInt8) :=
  match data with
  | none => ⟨-1, pos, none⟩
  | some mem =>
    if buf_length > 0 ∧ data_len - pos ≥ buf_length ∧ pos ≥ 0 then
      ⟨0, pos + buf_length, some (mem.read pos.toNat buf_length.toNat)⟩
    else ⟨-1, pos, none⟩

/-- `get_string(…, str_buf_length, str, real_str_buf_length)`: the bytes stored at
    the beginning of `str`, and `real_str_buf_length`. -/
def get_stringTo (data : Option Memory) (data_len pos str_buf_length : ℤ) : Got (List UInt8 × ℤ) :=
  match data with
  | none => ⟨-1, pos, none⟩
  | some mem =>
    if data_len - pos ≥ 4 ∧ pos ≥ 0 ∧ str_buf_length > 0 then
      match get_int32 (some mem) data_len pos with
      | ⟨iret, pos, none⟩ => ⟨iret, pos, some ([0], 0)⟩
      | ⟨_, pos, some length⟩ =>
        if length > 0 then
          if length ≤ str_buf_length then
            if data_len - pos ≥ length then
              ⟨0, pos + length, some (mem.read pos.toNat length.toNat, length - 1)⟩
            else ⟨-3, pos, some ([0], 0)⟩
          else ⟨-2, pos, some ([0], 0)⟩
        else ⟨0, pos, some ([0], 0)⟩
    else ⟨-1, pos, none⟩

/-- `get_string(…, std::string& str)` -/
def get_string (data : Option Memory) (data_len pos : ℤ) : Got (List UInt8) :=
  match data with
  | none => ⟨-1, pos, none⟩
  | some mem =>
    if data_len - pos ≥ 4 ∧ pos ≥ 0 then
      match get_int32 (some mem) data_len pos with
      | ⟨iret, pos, none⟩ => ⟨iret, pos, none⟩
      | ⟨_, pos, some length⟩ =>
        if length > 0 then
          if data_len - pos ≥ length then
            ⟨0, pos + length, some (mem.read pos.toNat (length - 1).toNat)⟩
          else ⟨-2, pos, none⟩
        else ⟨0, pos, some []⟩
    else ⟨-1, pos, none⟩

/-! ## §3. Numbers. -/

section Numbers

variable {mem : Memory} {data_len value : ℤ} {n : ℕ}

/-- What is written. -/
theorem setInt_of (mem : Memory) (value : ℤ) (hlen : (n : ℤ) ≤ data_len) :
    setInt n (some mem) data_len 0 value = ⟨0, n, some (mem.write 0 (encodeInt n value))⟩ := by
  unfold setInt
  dsimp only
  rw [if_pos (by omega), zero_add, toNat_zero]

/-- The sizes of the numbers that are shifted together. -/
def Wide (n : ℕ) : Prop := n = 2 ∨ n = 4 ∨ n = 8

/-- A byte goes into the low byte that is free. -/
theorem shiftIn_bmod (hn : Wide n) (byte : UInt8) (x : ℕ) :
    shiftIn (8 * n) byte (Int.bmod x (2 ^ (8 * n))) = Int.bmod (byte.toNat + 256 * x : ℕ) (2 ^ (8 * n)) := by
  have hbyte : byte.toNat < 256 := byte.toNat_lt
  unfold shiftIn
  obtain hn | hn | hn := hn
  · rw [hn]
    unfold Int.bmod
    dsimp only
    split_ifs <;> omega
  · rw [hn]
    unfold Int.bmod
    dsimp only
    split_ifs <;> omega
  · rw [hn]
    unfold Int.bmod
    dsimp only
    split_ifs <;> omega

/-- **The shifts make the number**, sign included. -/
theorem foldr_shiftIn (hn : Wide n) (bs : List UInt8) :
    bs.foldr (shiftIn (8 * n)) 0 = Int.bmod (decode bs) (2 ^ (8 * n)) := by
  induction bs with
  | nil => exact zero_bmod.symm
  | cons b bs ih =>
    rw [foldr_cons, ih, shiftIn_bmod hn]
    rfl

/-- WHAT WAS WRITTEN IS READ, whatever follows it. -/
theorem getInt_of (hn : Wide n) (hread : mem.read 0 n = encodeInt n value) (hlen : (n : ℤ) ≤ data_len)
    (hlo : -(256 ^ n : ℕ) ≤ 2 * value) (hhi : 2 * value < (256 ^ n : ℕ)) :
    getInt n (some mem) data_len 0 = ⟨0, n, some value⟩ := by
  have hvalue : (encodeInt n value).foldr (shiftIn (8 * n)) 0 = value := by
    have hpow : 2 ^ (8 * n) = 256 ^ n := by rw [Nat.pow_mul]
    rw [foldr_shiftIn hn, hpow]
    have hdecode := decodeInt_encodeInt n value
    unfold decodeInt at hdecode
    rw [length_encodeInt] at hdecode
    rw [hdecode]
    exact bmod_eq_of_le_mul_two (by omega) (by omega)
  unfold getInt
  dsimp only
  rw [if_pos (by omega), zero_add, toNat_zero, hread, hvalue]

theorem get_int8_of (hread : mem.read 0 1 = encodeInt 1 value) (hlen : 1 ≤ data_len)
    (hlo : -2 ^ 7 ≤ value) (hhi : value < 2 ^ 7) : get_int8 (some mem) data_len 0 = ⟨0, 1, some value⟩ := by
  have hbyte : [mem 0] = encodeInt 1 value := hread
  unfold get_int8
  dsimp only
  rw [if_pos (by omega), zero_add, toNat_zero, hbyte, decodeInt_encodeInt]
  rw [bmod_eq_of_le_mul_two (by omega) (by omega)]

end Numbers

/-! ## §4. Bytes and strings. -/

section Strings

variable {mem : Memory} {data_len : ℤ} {str : List UInt8}

variable {buf : List UInt8}

theorem set_bytes_of (mem : Memory) (hpos : 0 < buf.length) (hlen : (buf.length : ℤ) ≤ data_len) :
    set_bytes (some mem) data_len 0 buf = ⟨0, buf.length, some (mem.write 0 buf)⟩ := by
  unfold set_bytes
  dsimp only
  rw [if_pos (by omega), zero_add, toNat_zero]

theorem get_bytes_of (hread : mem.read 0 buf.length = buf) (hpos : 0 < buf.length)
    (hlen : (buf.length : ℤ) ≤ data_len) :
    get_bytes (some mem) data_len 0 buf.length = ⟨0, buf.length, some buf⟩ := by
  unfold get_bytes
  dsimp only
  rw [if_pos (by omega), zero_add, toNat_zero, toNat_natCast, hread]

/-- A string in bytes. -/
def stringBytes (str : List UInt8) : List UInt8 :=
  if str = [] then encodeInt 4 0 else encodeInt 4 (str.length + 1 : ℕ) ++ str ++ [0]

theorem length_stringBytes (str : List UInt8) : (stringBytes str).length = get_string_length str := by
  unfold stringBytes get_string_length
  by_cases hnil : str = []
  · rw [if_pos hnil, if_pos hnil, length_encodeInt]
  · rw [if_neg hnil, if_neg hnil, length_append, length_append, length_encodeInt,
      length_singleton]
    omega

theorem cstr_of (hnul : 0 ∉ str) : cstr str = str := by
  unfold cstr
  rw [takeWhile_eq_self_iff]
  intro c hc
  exact bne_iff_ne.mpr (fun heq => hnul (heq ▸ hc))

theorem set_string_of (mem : Memory) (hnul : 0 ∉ str) (hlen : ((stringBytes str).length : ℤ) ≤ data_len) :
    set_string (some mem) data_len 0 str =
      ⟨0, (stringBytes str).length, some (mem.write 0 (stringBytes str))⟩ := by
  have hbytes := length_stringBytes str
  unfold get_string_length at hbytes
  unfold set_string
  dsimp only
  rw [cstr_of hnul]
  by_cases hnil : str = []
  · rw [if_pos hnil] at hbytes
    have hzero : str.length = 0 := by rw [hnil, length_nil]
    rw [if_pos (by omega), if_pos hzero, if_pos (by omega), set_int32, setInt_of mem _ (by omega), hbytes,
      if_neg (by omega)]
    unfold stringBytes
    rw [if_pos hnil]
    rfl
  rw [if_neg hnil] at hbytes
  have hne : ¬ str.length = 0 := fun hzero => hnil (length_eq_zero_iff.mp hzero)
  rw [if_pos (by omega), if_neg hne, if_pos (by omega), set_int32, setInt_of mem _ (by omega), hbytes,
    if_pos ⟨rfl, by omega⟩, Option.map_some]
  have hfour : ((4 : ℕ) : ℤ).toNat = 0 + (encodeInt 4 (str.length + 1 : ℕ)).length := by
    rfl
  unfold stringBytes
  rw [if_neg hnil, hfour, Memory.write_append, Nat.add_sub_cancel, Nat.add_assoc, ← length_append,
    Memory.write_append]
  congr 1
  push_cast
  omega

variable (hlt : str.length < 2 ^ 31 - 1)
include hlt

section

variable (hread : mem.read 0 (stringBytes str).length = stringBytes str)
include hread

/-- The length in front of a string. -/
theorem get_int32_of_string (hlen : ((stringBytes str).length : ℤ) ≤ data_len) :
    get_int32 (some mem) data_len 0 = ⟨0, 4, some (if str = [] then 0 else str.length + 1 : ℕ)⟩ := by
  have hbytes := length_stringBytes str
  unfold get_string_length at hbytes
  have hhead : mem.read 0 4 = encodeInt 4 ((if str = [] then 0 else str.length + 1 : ℕ) : ℤ) := by
    by_cases hnil : str = []
    · rw [if_pos hnil] at hbytes ⊢
      rw [hbytes] at hread
      rw [hread]
      unfold stringBytes
      rw [if_pos hnil]
      rfl
    · unfold stringBytes at hread
      rw [if_neg hnil, append_assoc] at hread
      rw [if_neg hnil]
      have hfirst := (Memory.read_eq_append hread).1
      exact hfirst
  have hrange : (if str = [] then 0 else str.length + 1 : ℕ) < 2 ^ 31 := by
    split_ifs <;> omega
  refine getInt_of (Or.inr (Or.inl rfl)) hhead ?_ (by omega) (by omega)
  rw [hbytes] at hlen
  split_ifs at hlen <;> push_cast <;> omega

/-- **A string is read back** as a `std::string`. -/
theorem get_string_of (hlen : ((stringBytes str).length : ℤ) ≤ data_len) :
    get_string (some mem) data_len 0 = ⟨0, (stringBytes str).length, some str⟩ := by
  have hbytes := length_stringBytes str
  unfold get_string_length at hbytes
  have hint := get_int32_of_string hlt hread hlen
  unfold get_string
  dsimp only
  rw [if_pos (by rw [hbytes] at hlen; split_ifs at hlen <;> omega), hint]
  dsimp only
  by_cases hnil : str = []
  · rw [if_pos hnil] at hbytes ⊢
    rw [if_neg (by omega), hbytes, hnil]
    rfl
  rw [if_neg hnil] at hbytes ⊢
  unfold stringBytes at hread
  rw [if_neg hnil, append_assoc] at hread
  have hbody := (Memory.read_eq_append (Memory.read_eq_append hread).2).1
  rw [length_encodeInt] at hbody
  rw [if_pos (by omega), if_pos (by omega), hbytes]
  rw [show (((str.length + 1 : ℕ) : ℤ) - 1).toNat = str.length by omega]
  rw [show ((4 : ℤ)).toNat = 0 + 4 from rfl, hbody]
  congr 1
  omega

/-- … and into a buffer that is large enough. -/
theorem get_stringTo_of (hlen : ((stringBytes str).length : ℤ) ≤ data_len) {str_buf_length : ℤ}
    (hbuf : (str.length + 1 : ℤ) ≤ str_buf_length) : get_stringTo (some mem) data_len 0 str_buf_length =
      ⟨0, (stringBytes str).length, some (str ++ [0], str.length)⟩ := by
  have hbytes := length_stringBytes str
  unfold get_string_length at hbytes
  have hint := get_int32_of_string hlt hread hlen
  unfold get_stringTo
  dsimp only
  rw [if_pos (by rw [hbytes] at hlen; split_ifs at hlen <;> omega), hint]
  dsimp only
  by_cases hnil : str = []
  · rw [if_pos hnil] at hbytes ⊢
    rw [if_neg (by omega), hbytes, hnil]
    rfl
  rw [if_neg hnil] at hbytes ⊢
  unfold stringBytes at hread
  rw [if_neg hnil, append_assoc] at hread
  have hbody := (Memory.read_eq_append hread).2
  rw [length_encodeInt, length_append, length_singleton] at hbody
  rw [if_pos (by omega), if_pos (by omega), if_pos (by omega), hbytes, toNat_natCast]
  congr 1
  · push_cast
    omega
  · push_cast
    congr 2
    omega

end

end Strings

end QSerialization

end KalavaPir.Common
