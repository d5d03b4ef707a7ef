/-
  KalavaPir.Common.QDataStream — the stream of `common/qdatastream.h`.

  The `set_*` functions append a value to the bytes of a `QBuffer`, and the
  `get_*` functions take it from their front.  The two functions that read a
  string disagree on how much they take.

  Each call that may need memory comes with what `malloc` returns to it
  (`malloc`); `none` as a result is a call that does not return, or an assertion
  that fails.
-/
import KalavaPir.Common.QBufferRuns
import KalavaPir.Common.QSerialization

namespace KalavaPir.Common

open KalavaPir.Framework QBuffer QSerialization List Option

/-- `class QDataStream`. -/
structure QDataStream where
  buffer_ : BlockBuffer

namespace QDataStream

/-! ## §1. The functions. -/

section Source

variable (malloc : Option Memory)

/-- `QDataStream(length)`; without a length there is no buffer either. -/
def new (length : ℤ) : Option QDataStream :=
  if length > 0 then (BlockBuffer.new.expand malloc length).map QDataStream.mk else some ⟨.new⟩

/-- The body of the `set_*` functions: room, the writing, `pour`. -/
def setWith (s : QDataStream) (least need : ℤ) (put : Option Memory → ℤ → Put) (length : ℕ) :
    Option (ℤ × QDataStream) :=
  (if s.buffer_.buffer.get_free_length < least then s.buffer_.expand malloc need else some s.buffer_).bind fun b =>
    let r := put b.buffer.get_free b.buffer.get_free_length
    let buffer := match r.data with
      | none => b.buffer
      | some free => b.buffer.storeFree free
    if r.iret = 0 then (buffer.pour length).map fun p => (0, ⟨{ b with buffer := p.2 }⟩)
    else some (r.iret, ⟨{ b with buffer := buffer }⟩)

/-- An `int8_t` is written. -/
def set_int8 (s : QDataStream) (value : ℤ) : Option (ℤ × QDataStream) :=
  s.setWith malloc 1 1 (fun data len => QSerialization.set_int8 data len 0 value) 1

/-- An `int16_t` is written. -/
def set_int16 (s : QDataStream) (value : ℤ) : Option (ℤ × QDataStream) :=
  s.setWith malloc 2 2 (fun data len => QSerialization.set_int16 data len 0 value) 2

/-- An `int32_t` is written. -/
def set_int32 (s : QDataStream) (value : ℤ) : Option (ℤ × QDataStream) :=
  s.setWith malloc 4 4 (fun data len => QSerialization.set_int32 data len 0 value) 4

/-- An `int64_t` is written. -/
def set_int64 (s : QDataStream) (value : ℤ) : Option (ℤ × QDataStream) :=
  s.setWith malloc 8 8 (fun data len => QSerialization.set_int64 data len 0 value) 8

/-- Bytes are written as they are. -/
def set_bytes (s : QDataStream) (data : List UInt8) : Option (ℤ × QDataStream) :=
  s.setWith malloc data.length data.length (fun mem len => QSerialization.set_bytes mem len 0 data) data.length

/-- `set_string(const std::string& str)`: room is asked for with a length that
    counts the prefix already. -/
def set_string (s : QDataStream) (str : List UInt8) : Option (ℤ × QDataStream) :=
  let length := get_string_length str
  s.setWith malloc (length + 4) length (fun mem len => QSerialization.set_string mem len 0 str) length

end Source

/-- `drain(length)` -/
def drain (s : QDataStream) (length : ℕ) : QDataStream :=
  ⟨{ s.buffer_ with buffer := (s.buffer_.buffer.drain length).2 }⟩

/-- The body of the `get_*` functions: the reading, and `drain`. -/
def getWith {α : Type} (s : QDataStream) (get : Option Memory → ℤ → Got α) (length : α → ℕ) :
    ℤ × Option α × QDataStream :=
  match get s.buffer_.buffer.get_data s.buffer_.buffer.get_data_length with
  | ⟨iret, _, none⟩ => (iret, none, s)
  | ⟨iret, _, some value⟩ =>
    (iret, some value, if iret = 0 then s.drain (length value) else s)

/-- An `int8_t` is read. -/
def get_int8 (s : QDataStream) : ℤ × Option ℤ × QDataStream :=
  s.getWith (fun data len => QSerialization.get_int8 data len 0) (fun _ => 1)

/-- An `int16_t` is read. -/
def get_int16 (s : QDataStream) : ℤ × Option ℤ × QDataStream :=
  s.getWith (fun data len => QSerialization.get_int16 data len 0) (fun _ => 2)

/-- An `int32_t` is read. -/
def get_int32 (s : QDataStream) : ℤ × Option ℤ × QDataStream :=
  s.getWith (fun data len => QSerialization.get_int32 data len 0) (fun _ => 4)

/-- An `int64_t` is read. -/
def get_int64 (s : QDataStream) : ℤ × Option ℤ × QDataStream :=
  s.getWith (fun data len => QSerialization.get_int64 data len 0) (fun _ => 8)

/-- `length` bytes are read. -/
def get_bytes (s : QDataStream) (length : ℤ) : ℤ × Option (List UInt8) × QDataStream :=
  s.getWith (fun data len => QSerialization.get_bytes data len 0 length) (fun _ => length.toNat)

/-- `get_string(buf_length, str, real_length)`: `drain(real_length)`. -/
def get_stringTo (s : QDataStream) (buf_length : ℤ) : ℤ × Option (List UInt8 × ℤ) × QDataStream :=
  s.getWith (fun data len => QSerialization.get_stringTo data len 0 buf_length) (fun r => r.2.toNat)

/-- `get_string(std::string& str)`: `drain(get_string_length(str))`. -/
def get_string (s : QDataStream) : ℤ × Option (List UInt8) × QDataStream :=
  s.getWith (fun data len => QSerialization.get_string data len 0) get_string_length

/-! ## §2. One write, one read. -/

section Calls

variable {malloc : Option Memory} {s : QDataStream} {bs w : List UInt8}

variable {put : Option Memory → ℤ → Put}

/-- A `set_*` call finds a block with room, or gets it from `expand`, which is not
    called while the free length is as large as the call compares it with. -/
def HasRoom (malloc : Option Memory) (b : QBuffer) (least need : ℤ) : Prop :=
  (b.pstart_ = none → b.get_free_length < least) ∧ BlockBuffer.Expands malloc b need

instance (malloc : Option Memory) (b : QBuffer) (least need : ℤ) : Decidable (HasRoom malloc b least need) :=
  inferInstanceAs (Decidable (_ ∧ _))

/-- **A `set_*` call appends its bytes.** -/
theorem setWith_of (h : QBuffer.Holds s.buffer_.buffer bs) {least : ℤ} (hleast : (w.length : ℤ) ≤ least)
    (hput : ∀ mem data_len, (w.length : ℤ) ≤ data_len → put (some mem) data_len = ⟨0, w.length, some (mem.write 0 w)⟩)
    (hhas : HasRoom malloc s.buffer_.buffer least w.length) :
    ∃ s', s.setWith malloc least w.length put w.length = some (0, s') ∧
      QBuffer.Holds s'.buffer_.buffer (bs ++ w) := by
  -- the buffer with the room
  obtain ⟨b, hb, hholds, hroom, hsome⟩ : ∃ b,
      (if s.buffer_.buffer.get_free_length < least then s.buffer_.expand malloc w.length else some s.buffer_) = some b ∧
        QBuffer.Holds b.buffer bs ∧ (w.length : ℤ) ≤ b.buffer.get_free_length ∧ b.buffer.pstart_ ≠ none := by
    by_cases hlt : s.buffer_.buffer.get_free_length < least
    · rw [if_pos hlt]
      obtain ⟨b, hexpand, hholds, hneed, hsome, -⟩ := BlockBuffer.expand_holds h hhas.2
      exact ⟨b, hexpand, hholds, hneed, hsome⟩
    · rw [if_neg hlt]
      exact ⟨s.buffer_, rfl, h, by omega, fun hnull => hlt (hhas.1 hnull)⟩
  obtain ⟨block, hblock⟩ := ne_none_iff_exists'.mp hsome
  have hfree : b.buffer.get_free = some (fun i => block (b.buffer.pfree_ + i)) := by
    unfold get_free seenFrom
    rw [hblock, map_some]
  obtain ⟨b', hpour, hholds'⟩ := hholds.put hblock hroom
  unfold setWith
  rw [hb, bind_some, hfree, hput _ _ hroom]
  rw [if_pos rfl, hpour, map_some]
  exact ⟨_, rfl, hholds'⟩

/-- **Without room it does not return 0**: there is no block to write to. -/
theorem setWith_fails (h : QBuffer.Holds s.buffer_.buffer bs) {least need : ℤ} {n : ℕ} (hleast : need ≤ least)
    (hput : ∀ data_len, (put none data_len).iret ≠ 0) (hlacks : ¬ HasRoom malloc s.buffer_.buffer least need)
    (s' : QDataStream) : s.setWith malloc least need put n ≠ some (0, s') := by
  intro hset
  obtain ⟨b, hb, hrest⟩ := bind_eq_some_iff.mp hset
  have hnull : b.buffer.pstart_ = none := by
    by_cases hlt : s.buffer_.buffer.get_free_length < least
    · rw [if_pos hlt] at hb
      exact (BlockBuffer.expand_lacks h (fun hexpands => hlacks ⟨fun _ => hlt, hexpands⟩) hb).1
    · rw [if_neg hlt] at hb
      cases hb
      by_contra hsome
      exact hlacks ⟨fun hnull => absurd hnull hsome, BlockBuffer.expands_of_le hsome (by omega)⟩
  have hfree : b.buffer.get_free = none := by
    unfold get_free seenFrom
    rw [hnull]
    rfl
  rw [hfree] at hrest
  rw [if_neg (hput _)] at hrest
  exact hput _ (congrArg Prod.fst (Option.some.inj hrest))

section

variable (h : QBuffer.Holds s.buffer_.buffer (w ++ bs))
include h

/-- A stream with bytes has a block. -/
theorem pstart_ne_none (hpos : 0 < w.length) : s.buffer_.buffer.pstart_ ≠ none := by
  intro hnull
  have hnil := append_eq_nil_iff.mp (h.nil hnull)
  rw [hnil.1] at hpos
  exact absurd hpos (by decide)

/-- A `get_*` call that reads the bytes `w`, and what it drains. -/
theorem getWith_eq {α : Type} {value : α} {get : Option Memory → ℤ → Got α} (hpos : 0 < w.length)
    (hget : ∀ mem data_len, Memory.read mem 0 w.length = w → (w.length : ℤ) ≤ data_len → get (some mem) data_len = ⟨0, w.length, some value⟩)
    (length : α → ℕ) : s.getWith get length = (0, some value, s.drain (length value)) := by
  obtain ⟨block, hblock⟩ := ne_none_iff_exists'.mp (pstart_ne_none h hpos)
  have hdata : s.buffer_.buffer.get_data = some (fun i => block (s.buffer_.buffer.pdata_ + i)) := by
    unfold get_data seenFrom
    rw [hblock, map_some]
  have hread := (Memory.read_eq_append (h.read hblock)).1
  unfold getWith
  rw [hdata, hget _ _ hread (by rw [h.get_data_length, length_append]; omega)]
  dsimp only
  rw [if_pos rfl]

/-- **A `get_*` call takes them away.** -/
theorem getWith_of {α : Type} {value : α} {get : Option Memory → ℤ → Got α} {length : α → ℕ} (hpos : 0 < w.length)
    (hget : ∀ mem data_len, Memory.read mem 0 w.length = w → (w.length : ℤ) ≤ data_len → get (some mem) data_len = ⟨0, w.length, some value⟩)
    (hlength : length value = w.length) :
    ∃ s', s.getWith get length = (0, some value, s') ∧ QBuffer.Holds s'.buffer_.buffer bs := by
  rw [getWith_eq h hpos hget length, hlength]
  exact ⟨_, rfl, (h.drain (pstart_ne_none h hpos)).2⟩

end

end Calls

/-! ## §3. Items. -/

/-- What a `get_*` call asks for. -/
inductive Kind where
  | int8
  | int16
  | int32
  | int64
  | bytes (length : ℤ)
  | string

/-- What a `set_*` call writes. -/
inductive Item where
  | int8 (value : ℤ)
  | int16 (value : ℤ)
  | int32 (value : ℤ)
  | int64 (value : ℤ)
  | bytes (data : List UInt8)
  | string (str : List UInt8)

namespace Item

/-- What a reader has to ask for. -/
def kind : Item → Kind
  | .int8 _ => .int8
  | .int16 _ => .int16
  | .int32 _ => .int32
  | .int64 _ => .int64
  | .bytes data => .bytes data.length
  | .string _ => .string

/-- Values of the parameter types, bytes that are not empty, strings without
    NUL whose stored length is an `int32_t`. -/
def Valid : Item → Prop
  | .int8 value => -2 ^ 7 ≤ value ∧ value < 2 ^ 7
  | .int16 value => -2 ^ 15 ≤ value ∧ value < 2 ^ 15
  | .int32 value => -2 ^ 31 ≤ value ∧ value < 2 ^ 31
  | .int64 value => -2 ^ 63 ≤ value ∧ value < 2 ^ 63
  | .bytes data => 0 < data.length ∧ data.length < 2 ^ 63
  | .string str => 0 ∉ str ∧ str.length < 2 ^ 31 - 1

/-- The bytes of an item. -/
def encoding : Item → List UInt8
  | .int8 value => encodeInt 1 value
  | .int16 value => encodeInt 2 value
  | .int32 value => encodeInt 4 value
  | .int64 value => encodeInt 8 value
  | .bytes data => data
  | .string str => stringBytes str

/-- What the free length is compared with: `set_string` counts the prefix twice. -/
def least : Item → ℤ
  | .string str => get_string_length str + 4
  | x => x.encoding.length

/-- A call compares with enough. -/
theorem length_encoding_le_least (x : Item) : (x.encoding.length : ℤ) ≤ x.least := by
  cases x with
  | string str =>
    have hlen := length_stringBytes str
    show ((stringBytes str).length : ℤ) ≤ get_string_length str + 4
    omega
  | int8 value | int16 value | int32 value | int64 value | bytes data => exact Int.le_refl _

/-- An item has bytes. -/
theorem length_encoding_pos {x : Item} (hx : x.Valid) : 0 < x.encoding.length := by
  cases x with
  | int8 value => exact (by decide : 0 < 1)
  | int16 value => exact (by decide : 0 < 2)
  | int32 value => exact (by decide : 0 < 4)
  | int64 value => exact (by decide : 0 < 8)
  | bytes data => exact hx.1
  | string str =>
    show 0 < (stringBytes str).length
    rw [length_stringBytes]
    unfold get_string_length
    split_ifs <;> omega

end Item

/-- The `set_*` call for an item. -/
def set (malloc : Option Memory) (s : QDataStream) : Item → Option (ℤ × QDataStream)
  | .int8 value => s.set_int8 malloc value
  | .int16 value => s.set_int16 malloc value
  | .int32 value => s.set_int32 malloc value
  | .int64 value => s.set_int64 malloc value
  | .bytes data => s.set_bytes malloc data
  | .string str => s.set_string malloc str

/-- The outcome of a `get_*` call, as an item. -/
def asItem {α : Type} (make : α → Item) (r : ℤ × Option α × QDataStream) : ℤ × Option Item × QDataStream :=
  (r.1, r.2.1.map make, r.2.2)

/-- The `get_*` call for a kind of item. -/
def get (s : QDataStream) : Kind → ℤ × Option Item × QDataStream
  | .int8 => asItem .int8 s.get_int8
  | .int16 => asItem .int16 s.get_int16
  | .int32 => asItem .int32 s.get_int32
  | .int64 => asItem .int64 s.get_int64
  | .bytes length => asItem .bytes (s.get_bytes length)
  | .string => asItem .string s.get_string

section Items

variable {malloc : Option Memory} {s : QDataStream} {bs : List UInt8} {x : Item}

section

variable (h : QBuffer.Holds s.buffer_.buffer bs)
include h

/-- A number is appended … -/
theorem setInt_appends {n : ℕ} (value : ℤ) (hroom : HasRoom malloc s.buffer_.buffer n n) :
    ∃ s', s.setWith malloc n n (fun data len => setInt n data len 0 value) n = some (0, s') ∧
      QBuffer.Holds s'.buffer_.buffer (bs ++ encodeInt n value) := by
  have hlen := length_encodeInt n value
  have hset : ∃ s', s.setWith malloc n (encodeInt n value).length (fun data len => setInt n data len 0 value)
      (encodeInt n value).length = some (0, s') ∧ QBuffer.Holds s'.buffer_.buffer (bs ++ encodeInt n value) := by
    refine setWith_of h (by omega) ?_ (by rw [hlen]; exact hroom)
    intro mem data_len hle
    rw [hlen] at hle ⊢
    exact setInt_of mem value hle
  rw [hlen] at hset
  exact hset

/-- **A `set_*` call writes its item.** -/
theorem set_of (hx : x.Valid) (hroom : HasRoom malloc s.buffer_.buffer x.least x.encoding.length) :
    ∃ s', s.set malloc x = some (0, s') ∧ QBuffer.Holds s'.buffer_.buffer (bs ++ x.encoding) := by
  cases x with
  | int8 value | int16 value | int32 value | int64 value => exact setInt_appends h value hroom
  | bytes data =>
    show ∃ s', s.setWith malloc data.length data.length
      (fun mem len => QSerialization.set_bytes mem len 0 data) data.length = some (0, s') ∧ _
    exact setWith_of h (Int.le_refl _) (fun mem _ hle => set_bytes_of mem hx.1 hle) hroom
  | string str =>
    have hlen := length_stringBytes str
    have hset : ∃ s', s.setWith malloc (((stringBytes str).length : ℤ) + 4) (stringBytes str).length
        (fun mem len => QSerialization.set_string mem len 0 str) (stringBytes str).length = some (0, s') ∧
        QBuffer.Holds s'.buffer_.buffer (bs ++ stringBytes str) := by
      refine setWith_of h (by omega) (fun mem _ hle => set_string_of mem hx.1 hle) ?_
      rw [hlen]
      have hroom' : HasRoom malloc s.buffer_.buffer (get_string_length str + 4) (stringBytes str).length := hroom
      rw [hlen] at hroom'
      exact hroom'
    rw [hlen] at hset
    exact hset

/-- **Without room it does not return 0.** -/
theorem set_fails (hlacks : ¬ HasRoom malloc s.buffer_.buffer x.least x.encoding.length) (s' : QDataStream) :
    s.set malloc x ≠ some (0, s') := by
  have hleast := x.length_encoding_le_least
  cases x with
  | int8 value =>
    unfold set set_int8
    exact setWith_fails h hleast (fun _ => (by decide : (-1 : ℤ) ≠ 0)) hlacks s'
  | int16 value =>
    unfold set set_int16
    exact setWith_fails h hleast (fun _ => (by decide : (-1 : ℤ) ≠ 0)) hlacks s'
  | int32 value =>
    unfold set set_int32
    exact setWith_fails h hleast (fun _ => (by decide : (-1 : ℤ) ≠ 0)) hlacks s'
  | int64 value =>
    unfold set set_int64
    exact setWith_fails h hleast (fun _ => (by decide : (-1 : ℤ) ≠ 0)) hlacks s'
  | bytes data =>
    unfold set set_bytes
    exact setWith_fails h hleast (fun _ => (by decide : (-1 : ℤ) ≠ 0)) hlacks s'
  | string str =>
    rw [show Item.encoding (.string str) = stringBytes str from rfl, length_stringBytes] at hleast hlacks
    unfold set set_string
    exact setWith_fails h hleast (fun _ => (by decide : (-1 : ℤ) ≠ 0)) hlacks s'

end

/-- … and taken. -/
theorem getInt_takes {n : ℕ} {value : ℤ} (h : QBuffer.Holds s.buffer_.buffer (encodeInt n value ++ bs)) (hn : Wide n)
    (hlo : -(256 ^ n : ℕ) ≤ 2 * value) (hhi : 2 * value < (256 ^ n : ℕ)) :
    ∃ s', s.getWith (fun data len => getInt n data len 0) (fun _ => n) = (0, some value, s') ∧
      QBuffer.Holds s'.buffer_.buffer bs := by
  have hlen := length_encodeInt n value
  have hpos : 0 < n := by
    unfold Wide at hn
    omega
  refine getWith_of h (by omega) ?_ hlen.symm
  intro mem data_len hread hle
  rw [hlen] at hread hle ⊢
  exact getInt_of hn hread hle hlo hhi

/-- **A `get_*` call reads the item** at the front. -/
theorem get_of (h : QBuffer.Holds s.buffer_.buffer (x.encoding ++ bs)) (hx : x.Valid) :
    ∃ s', s.get x.kind = (0, some x, s') ∧ QBuffer.Holds s'.buffer_.buffer bs := by
  cases x with
  | int8 value =>
    obtain ⟨s', hget, hrest⟩ : ∃ s', s.get_int8 = (0, some value, s') ∧ QBuffer.Holds s'.buffer_.buffer bs :=
      getWith_of h (by decide : 0 < 1) (fun _ _ hread hle => get_int8_of hread hle hx.1 hx.2) rfl
    exact ⟨s', congrArg (asItem .int8) hget, hrest⟩
  | int16 value =>
    obtain ⟨hlo, hhi⟩ := hx
    obtain ⟨s', hget, hrest⟩ : ∃ s', s.get_int16 = (0, some value, s') ∧ QBuffer.Holds s'.buffer_.buffer bs :=
      getInt_takes h (Or.inl rfl) (by omega) (by omega)
    exact ⟨s', congrArg (asItem .int16) hget, hrest⟩
  | int32 value =>
    obtain ⟨hlo, hhi⟩ := hx
    obtain ⟨s', hget, hrest⟩ : ∃ s', s.get_int32 = (0, some value, s') ∧ QBuffer.Holds s'.buffer_.buffer bs :=
      getInt_takes h (Or.inr (Or.inl rfl)) (by omega) (by omega)
    exact ⟨s', congrArg (asItem .int32) hget, hrest⟩
  | int64 value =>
    obtain ⟨hlo, hhi⟩ := hx
    obtain ⟨s', hget, hrest⟩ : ∃ s', s.get_int64 = (0, some value, s') ∧ QBuffer.Holds s'.buffer_.buffer bs :=
      getInt_takes h (Or.inr (Or.inr rfl)) (by omega) (by omega)
    exact ⟨s', congrArg (asItem .int64) hget, hrest⟩
  | bytes data =>
    obtain ⟨s', hget, hrest⟩ : ∃ s', s.get_bytes data.length = (0, some data, s') ∧ QBuffer.Holds s'.buffer_.buffer bs :=
      getWith_of h hx.1 (fun _ _ hread hle => get_bytes_of hread hx.1 hle) (Int.toNat_natCast _)
    exact ⟨s', congrArg (asItem .bytes) hget, hrest⟩
  | string str =>
    obtain ⟨s', hget, hrest⟩ : ∃ s', s.get_string = (0, some str, s') ∧ QBuffer.Holds s'.buffer_.buffer bs :=
      getWith_of h (Item.length_encoding_pos hx) (fun _ _ hread hle => get_string_of hx.2 hread hle)
        (length_stringBytes str).symm
    exact ⟨s', congrArg (asItem .string) hget, hrest⟩

end Items

/-! ## §4. Writes and reads in any order. -/

/-- An item is written, or the next one read. -/
inductive Call where
  /-- `malloc` is what it returns, if the call makes the buffer larger. -/
  | set (malloc : Option Memory) (x : Item)
  /-- The next item is read, with the function for its kind. -/
  | get

/-- Valid items, and no more reads than there are items: `n` of them wait. -/
def Allowed : ℕ → List Call → Prop
  | _, [] => True
  | n, .set _ x :: calls => x.Valid ∧ Allowed (n + 1) calls
  | n + 1, .get :: calls => Allowed n calls
  | 0, .get :: _ => False

/-- Nothing is left in the stream when no item waits. -/
def EmptyWith (s : QDataStream) (q : List Item) : Prop := q = [] → s.buffer_.buffer.get_data_length = 0

/-- **The contract**: each call returns 0, and a read gives the item that waits
    the longest (`q` are those that wait). -/
def Obeys : QDataStream → List Item → List Call → Prop
  | s, q, [] => s.EmptyWith q
  | s, q, .set malloc x :: calls =>
    s.EmptyWith q ∧ ∃ s', s.set malloc x = some (0, s') ∧ Obeys s' (q ++ [x]) calls
  | s, x :: q, .get :: calls => ∃ s', s.get x.kind = (0, some x, s') ∧ Obeys s' q calls
  | _, [], .get :: _ => False

/-- `malloc` is what it returns to the constructor. -/
def RoundTrips (malloc : Option Memory) (capacity : ℤ) (calls : List Call) : Prop :=
  ∃ s, new malloc capacity = some s ∧ Obeys s [] calls

/-- The stream after a `set_*` call. -/
def next (malloc : Option Memory) (s : QDataStream) (x : Item) : QDataStream :=
  match s.set malloc x with
  | none => s
  | some (_, s') => s'

/-- Each write has room or finds it. -/
def Fit : QDataStream → List Item → List Call → Prop
  | _, _, [] => True
  | s, q, .set malloc x :: calls =>
    HasRoom malloc s.buffer_.buffer x.least x.encoding.length ∧ Fit (s.next malloc x) (q ++ [x]) calls
  | s, x :: q, .get :: calls => Fit (s.get x.kind).2.2 q calls
  | _, [], .get :: _ => True

section Runs

variable {malloc : Option Memory}

/-- The bytes of the items that wait. -/
def Waiting (s : QDataStream) (q : List Item) : Prop :=
  QBuffer.Holds s.buffer_.buffer (q.flatMap Item.encoding) ∧ ∀ x ∈ q, x.Valid

variable {s : QDataStream} {q : List Item}

/-- Without items the stream is empty. -/
theorem Waiting.empty (h : s.Waiting q) : s.EmptyWith q := by
  intro hnil
  have hlen := h.1.get_data_length
  rw [hnil] at hlen
  exact hlen

/-- One item more is waiting. -/
theorem Waiting.set {s' : QDataStream} {x : Item} (h : s.Waiting q) (hx : x.Valid)
    (hholds : QBuffer.Holds s'.buffer_.buffer (q.flatMap Item.encoding ++ x.encoding)) : s'.Waiting (q ++ [x]) := by
  refine ⟨?_, ?_⟩
  · rw [flatMap_append, flatMap_singleton]
    exact hholds
  · intro y hy
    obtain hy | hy := mem_append.mp hy
    · exact h.2 y hy
    · rw [mem_singleton.mp hy]
      exact hx

/-- **THE FIRST ITEM IS READ.** -/
theorem Waiting.get {x : Item} (h : s.Waiting (x :: q)) :
    ∃ s', s.get x.kind = (0, some x, s') ∧ s'.Waiting q := by
  obtain ⟨hholds, hvalid⟩ := h
  obtain ⟨s', hget, hrest⟩ := get_of hholds (hvalid x mem_cons_self)
  exact ⟨s', hget, hrest, fun y hy => hvalid y (mem_cons_of_mem x hy)⟩

/-- **From any point on.** -/
theorem obeys_iff (calls : List Call) : ∀ {s : QDataStream} {q : List Item}, s.Waiting q →
    Allowed q.length calls → (Obeys s q calls ↔ Fit s q calls) := by
  induction calls with
  | nil =>
    intro s q h _
    exact ⟨fun _ => trivial, fun _ => h.empty⟩
  | cons c calls ih =>
    intro s q h hok
    cases c with
    | set malloc x =>
      obtain ⟨hx, hok⟩ := hok
      have hlen : (q ++ [x]).length = q.length + 1 := by
        rw [length_append, length_singleton]
      rw [← hlen] at hok
      by_cases hroom : HasRoom malloc s.buffer_.buffer x.least x.encoding.length
      · obtain ⟨s', hset, hholds⟩ := set_of h.1 hx hroom
        have hnext : s.next malloc x = s' := by
          unfold next
          rw [hset]
        have hiff := ih (h.set hx hholds) hok
        constructor
        · intro hobeys
          obtain ⟨-, t, ht, hrest⟩ := hobeys
          rw [hset] at ht
          cases ht
          refine ⟨hroom, ?_⟩
          rw [hnext]
          exact hiff.mp hrest
        · intro hfit
          have hrest : Fit (s.next malloc x) (q ++ [x]) calls := hfit.2
          rw [hnext] at hrest
          exact ⟨h.empty, s', hset, hiff.mpr hrest⟩
      · refine iff_of_false ?_ (fun hfit => hroom hfit.1)
        intro hobeys
        obtain ⟨-, s', hset, -⟩ := hobeys
        exact set_fails h.1 hroom s' hset
    | get =>
      cases q with
      | nil => exact hok.elim
      | cons x q =>
        obtain ⟨s', hget, hwaiting⟩ := h.get
        have hnext : (s.get x.kind).2.2 = s' := by rw [hget]
        constructor
        · intro hobeys
          obtain ⟨t, ht, hrest⟩ := hobeys
          show Fit (s.get x.kind).2.2 q calls
          rw [hget] at ht
          have hst : s' = t := congrArg (fun r => r.2.2) ht
          rw [hnext]
          rw [← hst] at hrest
          exact (ih hwaiting hok).mp hrest
        · intro hfit
          have hfit' : Fit (s.get x.kind).2.2 q calls := hfit
          rw [hnext] at hfit'
          exact ⟨s', hget, (ih hwaiting hok).mpr hfit'⟩

variable {capacity : ℤ}

/-- The constructor returns, with a block or without. -/
theorem new_of (hcap : capacity ≤ 2 ^ 62) : ∃ s, new malloc capacity = some s ∧ s.Waiting [] := by
  unfold new
  by_cases hpos : capacity > 0
  · obtain ⟨i, -, -, hrun, -⟩ := double_of_le hcap rounds (j := 8) (by decide) (by decide)
    have hrun' : double capacity rounds DEFAULT_MALLOC_SIZE = some (2 ^ i) := hrun
    have hexpand : ∃ b, BlockBuffer.new.expand malloc capacity = some b ∧ QBuffer.Holds b.buffer [] := by
      cases malloc with
      | some m =>
        have hexpands : BlockBuffer.Expands (some m) QBuffer.new capacity :=
          ⟨hcap, fun _ => nofun, fun hno => absurd rfl hno⟩
        obtain ⟨b, hb, hholds, -⟩ := BlockBuffer.expand_holds (s := .new) holds_new hexpands
        exact ⟨b, hb, hholds⟩
      | none =>
        have hrefused : BlockBuffer.new.expand none capacity =
            some ⟨{ pstart_ := none, pend_ := (2 ^ i : ℤ).toNat, pfree_ := 0, pdata_ := 0 }, 0⟩ :=
          congrArg (Option.map _) hrun'
        exact ⟨_, hrefused, nofun, rfl, Nat.zero_le _, fun _ => rfl, fun hno => absurd rfl hno⟩
    obtain ⟨b, hb, hholds⟩ := hexpand
    rw [if_pos hpos, hb, map_some]
    exact ⟨_, rfl, hholds, fun x hx => absurd hx not_mem_nil⟩
  · rw [if_neg hpos]
    exact ⟨_, rfl, holds_new, fun x hx => absurd hx not_mem_nil⟩

/-- Beyond 2⁶² the constructor does not return. -/
theorem new_none (hcap : 2 ^ 62 < capacity) : new malloc capacity = none := by
  have hrun : double capacity rounds DEFAULT_MALLOC_SIZE = none := double_of_gt hcap rounds (j := 8) (by decide)
  have hexpand : BlockBuffer.new.expand malloc capacity = none := congrArg (Option.map _) hrun
  unfold new
  rw [if_pos (by omega), hexpand, map_none]

/-- **WHAT WAS WRITTEN IS READ**, in any order of writes and reads, if and only
    if the initial capacity is at most 2⁶² and each write has room or finds it. -/
theorem round_trip_iff (malloc : Option Memory) (capacity : ℤ) {calls : List Call} (hok : Allowed 0 calls) :
    RoundTrips malloc capacity calls ↔
      capacity ≤ 2 ^ 62 ∧ ∀ s, new malloc capacity = some s → Fit s [] calls := by
  by_cases hcap : capacity ≤ 2 ^ 62
  · obtain ⟨s, hnew, hwaiting⟩ : ∃ s, new malloc capacity = some s ∧ s.Waiting [] := new_of hcap
    have hiff : Obeys s [] calls ↔ Fit s [] calls := obeys_iff calls hwaiting hok
    constructor
    · intro hrun
      obtain ⟨t, ht, hobeys⟩ := hrun
      rw [hnew] at ht
      rw [← Option.some.inj ht] at hobeys
      refine ⟨hcap, ?_⟩
      intro t ht
      rw [hnew] at ht
      rw [← Option.some.inj ht]
      exact hiff.mp hobeys
    · intro hfit
      exact ⟨s, hnew, hiff.mpr (hfit.2 s hnew)⟩
  · refine iff_of_false ?_ (fun hfit => hcap hfit.1)
    intro hrun
    obtain ⟨s, hnew, -⟩ := hrun
    rw [new_none (by omega)] at hnew
    exact absurd hnew (by simp)

end Runs

/-- Memory of zeros. -/
def zeros : Option Memory := some fun _ => 0

/-- A read between the writes; 300 bytes make the buffer larger. -/
def shortCalls : List Call :=
  [.set none (.int16 (-5)), .set none (.string [104, 105]), .get, .set zeros (.bytes (replicate 300 7)), .get, .get]

theorem allowed_shortCalls : Allowed 0 shortCalls :=
  ⟨⟨by decide, by decide⟩, ⟨by decide, by decide⟩, ⟨by decide +kernel, by decide +kernel⟩, trivial⟩

theorem round_trip_iff_shortCalls : Allowed 0 shortCalls ∧ RoundTrips zeros 3 shortCalls := by
  refine ⟨allowed_shortCalls, (round_trip_iff zeros 3 allowed_shortCalls).mpr ⟨by decide, ?_⟩⟩
  intro s hnew
  obtain rfl := Option.some.inj hnew
  exact ⟨by decide, by decide, by decide +kernel, trivial⟩

/-- The constructor does not return when no power of two below 2⁶³ is enough. -/
theorem large_capacity_hangs :
    Allowed 0 [.set zeros (.int8 7), .get] ∧ new zeros (2 ^ 62 + 1) = none ∧
      ¬ RoundTrips zeros (2 ^ 62 + 1) [.set zeros (.int8 7), .get] := by
  have hnew : new zeros (2 ^ 62 + 1) = none := new_none (by decide)
  refine ⟨⟨⟨by decide, by decide⟩, trivial⟩, hnew, ?_⟩
  intro hrun
  obtain ⟨s, hs, -⟩ := hrun
  rw [hnew] at hs
  exact absurd hs (by simp)

/-! ## §5. The two ways to read a string. -/

/-- The two functions deliver the same characters and leave the stream at the
    same position, so that the calls after them return the same. -/
def ReadAlike (s : QDataStream) (buf_length : ℤ) : Prop :=
  ∃ out real_length str s₁ s₂, s.get_stringTo buf_length = (0, some (out, real_length), s₁) ∧
    s.get_string = (0, some str, s₂) ∧ cstr out = str ∧
    s₁.buffer_.buffer.get_data_length = s₂.buffer_.buffer.get_data_length ∧
    ∀ kind, (s₁.get kind).1 = (s₂.get kind).1 ∧ (s₁.get kind).2.1 = (s₂.get kind).2.1

section Strings

variable {s : QDataStream} {str tail : List UInt8}

/-- **What they do**: the characters are the same, but one of them leaves the
    length and the NUL in the stream. -/
theorem get_strings_of (h : QBuffer.Holds s.buffer_.buffer (stringBytes str ++ tail)) (hvalid : Item.Valid (.string str))
    {buf_length : ℤ} (hbuf : (str.length + 1 : ℤ) ≤ buf_length) :
    ∃ s₁ s₂, s.get_stringTo buf_length = (0, some (str ++ [0], (str.length : ℤ)), s₁) ∧
      s.get_string = (0, some str, s₂) ∧
      s₁.buffer_.buffer.get_data_length = (get_string_length str - str.length : ℤ) + tail.length ∧
      s₂.buffer_.buffer.get_data_length = tail.length := by
  have hpos : 0 < (stringBytes str).length := Item.length_encoding_pos hvalid
  have hlen := length_stringBytes str
  have hle : str.length ≤ get_string_length str := by
    unfold get_string_length
    split_ifs with hnil
    · rw [hnil]
      exact Nat.zero_le 4
    · omega
  obtain ⟨s₂, hget₂, hholds₂⟩ : ∃ s₂, s.get_string = (0, some str, s₂) ∧ QBuffer.Holds s₂.buffer_.buffer tail :=
    getWith_of h hpos (fun _ _ hread hlen => get_string_of hvalid.2 hread hlen) hlen.symm
  have hget₁ : s.get_stringTo buf_length =
      (0, some (str ++ [0], (str.length : ℤ)), s.drain str.length) :=
    getWith_eq h hpos (fun _ _ hread hlen => get_stringTo_of hvalid.2 hread hlen hbuf) _
  refine ⟨s.drain str.length, s₂, hget₁, hget₂, ?_, hholds₂.get_data_length⟩
  -- the first `str.length` bytes are gone, whatever they are
  have htake : ((stringBytes str ++ tail).take str.length).length = str.length := by
    rw [length_take, length_append]
    omega
  have hsome := pstart_ne_none h hpos
  rw [← take_append_drop str.length (stringBytes str ++ tail)] at h
  have hdrained := (h.drain hsome).2
  rw [htake] at hdrained
  show (s.buffer_.buffer.drain str.length).2.get_data_length = _
  rw [hdrained.get_data_length, length_drop, length_append]
  omega

/-- **THE TWO FUNCTIONS NEVER AGREE**, whatever follows the string. -/
theorem get_string_disagree (h : QBuffer.Holds s.buffer_.buffer (stringBytes str ++ tail))
    (hvalid : Item.Valid (.string str)) {buf_length : ℤ} (hbuf : (str.length + 1 : ℤ) ≤ buf_length) :
    ¬ ReadAlike s buf_length := by
  intro halike
  obtain ⟨s₁, s₂, hget₁, hget₂, hlen₁, hlen₂⟩ := get_strings_of h hvalid hbuf
  obtain ⟨out, real_length, str', t₁, t₂, ht₁, ht₂, -, hsame, -⟩ := halike
  rw [hget₁] at ht₁
  rw [hget₂] at ht₂
  have h₁ : s₁ = t₁ := congrArg (fun r => r.2.2) ht₁
  have h₂ : s₂ = t₂ := congrArg (fun r => r.2.2) ht₂
  rw [← h₁, ← h₂, hlen₁, hlen₂] at hsame
  unfold get_string_length at hsame
  split_ifs at hsame with hnil
  · rw [hnil, List.length_nil] at hsame
    omega
  · omega

end Strings

/-- A new stream with the string "a" and the number 7. -/
def stringAndNumber : Option QDataStream :=
  (new none 0).bind fun s => (s.set_string zeros [97]).bind fun r => (r.2.set_int32 none 7).map Prod.snd

theorem holds_stringAndNumber :
    ∃ s, stringAndNumber = some s ∧ QBuffer.Holds s.buffer_.buffer (stringBytes [97] ++ encodeInt 4 7) := by
  obtain ⟨s₁, hset₁, h₁⟩ : ∃ s₁, QDataStream.set zeros ⟨.new⟩ (.string [97]) = some (0, s₁) ∧
      QBuffer.Holds s₁.buffer_.buffer ([] ++ stringBytes [97]) :=
    set_of holds_new ⟨by decide, by decide⟩ (by decide)
  have hsome : HasRoom none s₁.buffer_.buffer 4 4 := by
    cases hset₁
    decide
  obtain ⟨s₂, hset₂, h₂⟩ : ∃ s₂, s₁.set none (.int32 7) = some (0, s₂) ∧
      QBuffer.Holds s₂.buffer_.buffer ([] ++ stringBytes [97] ++ encodeInt 4 7) :=
    set_of h₁ ⟨by decide, by decide⟩ hsome
  have hset₁' : QDataStream.set_string zeros ⟨.new⟩ [97] = some (0, s₁) := hset₁
  have hset₂' : s₁.set_int32 none 7 = some (0, s₂) := hset₂
  refine ⟨s₂, ?_, h₂⟩
  unfold stringAndNumber
  rw [show new none 0 = some ⟨.new⟩ from rfl, bind_some, hset₁', bind_some, hset₂', map_some]

theorem get_string_disagree_stringAndNumber : ∃ s, stringAndNumber = some s ∧ ¬ ReadAlike s 100 := by
  obtain ⟨s, hs, hholds⟩ := holds_stringAndNumber
  exact ⟨s, hs, get_string_disagree hholds ⟨by decide, by decide⟩ (by decide)⟩

/-- The number that follows is read from the rest of the string. -/
theorem following_number_differs :
    ∃ s, stringAndNumber = some s ∧ s.get_string.2.2.get_int32.2.1 = some 7 ∧
      (s.get_stringTo 100).2.2.get_int32.2.1 = some 1627389952 ∧ ¬ ReadAlike s 100 := by
  refine ⟨_, rfl, by decide, by decide +kernel, ?_⟩
  intro halike
  obtain ⟨out, real_length, str, s₁, s₂, hget₁, hget₂, -, hsame, -⟩ := halike
  have hlen₁ := congrArg (fun r => r.2.2.buffer_.buffer.get_data_length) hget₁
  have hlen₂ := congrArg (fun r => r.2.2.buffer_.buffer.get_data_length) hget₂
  rw [← hlen₁, ← hlen₂] at hsame
  exact absurd hsame (by decide)

end QDataStream

end KalavaPir.Common
