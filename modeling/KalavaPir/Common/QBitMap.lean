/-
  KalavaPir.Common.QBitMap — the bitmap of `common/qbitmap.h`.

  `set_count_` is a cached count of the set bits.  `mount()` replaces the data and
  leaves the count as it was; and the number of slots, `(item_count+7)>>3` of
  `uint32_t`, is 0 for the last seven counts.  A failed `Q_ASSERT` and an access
  without a byte behind it are undefined.
-/
import KalavaPir.Framework.BitCount
import KalavaPir.Framework.Histories
import KalavaPir.Framework.Memory

namespace KalavaPir.Common

open KalavaPir.Framework Option Function

/-! ## §1. The bitmap and its calls (qbitmap.h:52). -/

namespace QBitMap

/-- What `data_` points to: memory of a caller, or `size` bytes from
    `q_new_array`, behind which nothing can be read or written. -/
structure Block where
  bytes : Memory
  size : Option ℕ := none

/-- The first `n` bytes are there. -/
def Block.Has (b : Block) (n : ℕ) : Prop := ∀ size ∈ b.size, n ≤ size

instance (b : Block) (n : ℕ) : Decidable (b.Has n) := by
  unfold Block.Has
  infer_instance

end QBitMap

/-- The fields of the class. -/
structure QBitMap where
  item_count_ : UInt32
  slot_count_ : UInt32
  set_count_ : UInt32
  data_ : Option QBitMap.Block
  mount_ : Bool

namespace QBitMap

/-- The bits of a slot. -/
def SLOT_SIZE : UInt32 := 8

/-- The mask of each bit, from the left. -/
def BITMAP_MASK : List UInt8 := [0x80, 0x40, 0x20, 0x10, 0x08, 0x04, 0x02, 0x01]

/-- What a search that fails returns. -/
def INVALID_INDEX : UInt32 := 0xFFFFFFFF

/-- `(item_count+SLOT_SIZE-1)>>3` -/
def slots (item_count : UInt32) : UInt32 := (item_count + SLOT_SIZE - 1) >>> 3

/-- `BITMAP_MASK[pos%SLOT_SIZE]` -/
def maskOf (pos : UInt32) : UInt8 := BITMAP_MASK.getD (pos % SLOT_SIZE).toNat 0

/-- `data_[quot]` -/
def Block.get (b : Block) (quot : UInt32) : Option UInt8 :=
  if b.Has (quot.toNat + 1) then some (b.bytes quot.toNat) else none

/-- `data_[quot]=byte`, where the byte has been read before. -/
def Block.set (b : Block) (quot : UInt32) (byte : UInt8) : Block :=
  { b with bytes := update b.bytes quot.toNat byte }

/-- What a call gives back. -/
inductive Answer
  | flag (b : Bool)
  | count (n : ℕ)
  | unit
  deriving DecidableEq

/-- The calls, and the constructions of another bitmap that the next calls go to;
    `duplicate` is the copy constructor. -/
inductive Call
  | construct (set_flag : Bool)
  | make (item_count : UInt32) (set_flag : Bool)
  | duplicate
  | mount (item_count : UInt32) (bitmap_data : Option Memory) (mount_flag : Bool)
  | alloc (item_count : UInt32) (set_flag : Bool)
  | copy (slot_count : UInt32) (bitmap_data : Memory)
  | bit (pos : UInt32)
  | turn_on_bit (pos : UInt32)
  | turn_off_bit (pos : UInt32)
  | clear
  | get_set_count

/-- The constructor `QBitMap(set_flag)`. -/
def construct (set_flag : Bool) : QBitMap where
  item_count_ := if set_flag then INVALID_INDEX else 0
  slot_count_ := if set_flag then INVALID_INDEX else 0
  set_count_ := 0
  data_ := none
  mount_ := false

/-- `data_=q_new_array<char>(slot_count_); memset(data_, set_flag?0xFF:0x00, slot_count_);`,
    with memory for it. -/
def fill (slot_count : UInt32) (set_flag : Bool) : Block where
  bytes := fun _ => if set_flag then 0xFF else 0x00
  size := some slot_count.toNat

/-- The constructor `QBitMap(item_count, set_flag)`. -/
def make (item_count : UInt32) (set_flag : Bool) : Option QBitMap :=
  if item_count ≠ 0 then
    some
      { item_count_ := item_count
        slot_count_ := slots item_count
        set_count_ := if set_flag then item_count else 0
        data_ := some (fill (slots item_count) set_flag)
        mount_ := false }
  else none

/-- The copy constructor: `memcpy(data_, rhs.data_, slot_count_);` -/
def duplicate (rhs : QBitMap) : Option QBitMap :=
  match rhs.data_ with
  | some data =>
    if data.Has rhs.slot_count_.toNat then
      some { rhs with data_ := some ⟨data.bytes, some rhs.slot_count_.toNat⟩, mount_ := false }
    else none
  | none => some { rhs with mount_ := false }

/-- `mount(item_count, bitmap_data, mount_flag)`. -/
def mount (q : QBitMap) (item_count : UInt32) (bitmap_data : Option Memory) (mount_flag : Bool) :
    Option QBitMap :=
  if !q.mount_ && q.data_.isSome then none
  else
    some
      { q with
        data_ := bitmap_data.map fun bytes => ⟨bytes, none⟩
        mount_ := mount_flag
        item_count_ := item_count
        slot_count_ := slots item_count }

/-- `alloc(item_count, set_flag)`. -/
def alloc (q : QBitMap) (item_count : UInt32) (set_flag : Bool) : Bool × QBitMap :=
  if q.data_.isSome || item_count == 0 then (false, q)
  else
    (true,
      { q with
        slot_count_ := slots item_count
        data_ := some (fill (slots item_count) set_flag)
        item_count_ := item_count
        set_count_ := if set_flag then item_count else 0 })

/-- `bit(pos)`. -/
def bit (q : QBitMap) (pos : UInt32) : Option Bool :=
  if pos < q.item_count_ then
    q.data_.bind fun data => (data.get (pos / SLOT_SIZE)).map fun byte => (byte &&& maskOf pos) != 0
  else none

/-- `set_count_=0; for(pos=0; pos<item_count_; ++pos) if(bit(pos)) ++set_count_;` -/
def recount (q : QBitMap) : Option UInt32 :=
  (List.range q.item_count_.toNat).foldlM
    (fun set_count pos => (q.bit (UInt32.ofNat pos)).map fun b => if b then set_count + 1 else set_count) 0

/-- `copy(slot_count, bitmap_data)`. -/
def copy (q : QBitMap) (slot_count : UInt32) (bitmap_data : Memory) : Option (Bool × QBitMap) :=
  match q.data_ with
  | none => some (false, q)
  | some data =>
    if q.slot_count_ ≠ slot_count then some (false, q)
    else if data.Has slot_count.toNat then
      let bytes := data.bytes.write 0 (bitmap_data.read 0 slot_count.toNat)
      let q := { q with data_ := some { data with bytes := bytes } }
      q.recount.map fun set_count => (true, { q with set_count_ := set_count })
    else none

/-- `turn_on_bit(pos)`. -/
def turn_on_bit (q : QBitMap) (pos : UInt32) : Option QBitMap :=
  if pos < q.item_count_ then
    q.data_.bind fun data =>
      (data.get (pos / SLOT_SIZE)).map fun byte =>
        if byte &&& maskOf pos = 0 then
          { q with
            data_ := some (data.set (pos / SLOT_SIZE) (byte ||| maskOf pos))
            set_count_ := q.set_count_ + 1 }
        else q
  else none

/-- `turn_off_bit(pos)`. -/
def turn_off_bit (q : QBitMap) (pos : UInt32) : Option QBitMap :=
  if pos < q.item_count_ then
    q.data_.bind fun data =>
      (data.get (pos / SLOT_SIZE)).map fun byte =>
        if byte &&& maskOf pos = 0 then q
        else
          { q with
            data_ := some (data.set (pos / SLOT_SIZE) (byte &&& ~~~maskOf pos))
            set_count_ := q.set_count_ - 1 }
  else none

/-- `clear()`: `memset(data_, 0, slot_count_); set_count_=0;`; no bytes at all are
    set anywhere. -/
def clear (q : QBitMap) : Option QBitMap :=
  match q.data_ with
  | none => if q.slot_count_ = 0 then some { q with set_count_ := 0 } else none
  | some data =>
    if data.Has q.slot_count_.toNat then
      some
        { q with
          data_ := some { data with bytes := fun i => if i < q.slot_count_.toNat then 0 else data.bytes i }
          set_count_ := 0 }
    else none

/-- A call. -/
def step (q : QBitMap) : Call → Except Stop (Answer × QBitMap)
  | .construct set_flag => .ok (.unit, construct set_flag)
  | .make item_count set_flag => checked (make item_count set_flag) fun q => .ok (.unit, q)
  | .duplicate => checked q.duplicate fun q => .ok (.unit, q)
  | .mount item_count bitmap_data mount_flag =>
    checked (q.mount item_count bitmap_data mount_flag) fun q => .ok (.unit, q)
  | .alloc item_count set_flag => .ok (.flag (q.alloc item_count set_flag).1, (q.alloc item_count set_flag).2)
  | .copy slot_count bitmap_data => checked (q.copy slot_count bitmap_data) fun r => .ok (.flag r.1, r.2)
  | .bit pos => checked (q.bit pos) fun b => .ok (.flag b, q)
  | .turn_on_bit pos => checked (q.turn_on_bit pos) fun q => .ok (.unit, q)
  | .turn_off_bit pos => checked (q.turn_off_bit pos) fun q => .ok (.unit, q)
  | .clear => checked q.clear fun q => .ok (.unit, q)
  | .get_set_count => .ok (.count q.set_count_.toNat, q)

/-! ## §2. The row of bits. -/

/-- Bit `p` from the start of a memory on. -/
def bitAt (bytes : Memory) (p : ℕ) : Bool := (bytes (p / 8) &&& BITMAP_MASK.getD (p % 8) 0) != 0

/-- Bits, and how many of them are items; whether there are data for them, and of
    whom. -/
structure Row where
  items : ℕ := 0
  bits : ℕ → Bool := fun _ => false
  data : Bool := false
  mount : Bool := false

/-- The slots of the items. -/
def Row.slots (t : Row) : ℕ := (t.items + 7) / 8

/-- The set bits among the items. -/
def Row.count (t : Row) : ℕ := bitCount t.bits t.items

/-- The bits that are mounted. -/
def mounted (bitmap_data : Option Memory) (p : ℕ) : Bool := bitmap_data.any fun bytes => bitAt bytes p

/-- A bit set or not, if it is one of the items. -/
def Row.put (t : Row) (pos : UInt32) (b : Bool) : Except Stop (Answer × Row) :=
  if pos.toNat < t.items then .ok (.unit, { t with bits := update t.bits pos.toNat b })
  else .error .undefined

/-- The same calls on the row. -/
def row (t : Row) : Call → Except Stop (Answer × Row)
  | .construct set_flag => .ok (.unit, { items := if set_flag then INVALID_INDEX.toNat else 0 })
  | .make item_count set_flag =>
    if item_count = 0 then .error .undefined
    else .ok (.unit, { items := item_count.toNat, bits := fun _ => set_flag, data := true })
  | .duplicate => .ok (.unit, { t with mount := false })
  | .mount item_count bitmap_data mount_flag =>
    if !t.mount && t.data then .error .undefined
    else .ok (.unit,
      { items := item_count.toNat
        bits := mounted bitmap_data
        data := bitmap_data.isSome
        mount := mount_flag })
  | .alloc item_count set_flag =>
    if t.data || item_count == 0 then .ok (.flag false, t)
    else .ok (.flag true, { t with items := item_count.toNat, bits := fun _ => set_flag, data := true })
  | .copy slot_count bitmap_data =>
    if !t.data || t.slots != slot_count.toNat then .ok (.flag false, t)
    else .ok (.flag true,
      { t with bits := fun p => if p < 8 * t.slots then bitAt bitmap_data p else t.bits p })
  | .bit pos => if pos.toNat < t.items then .ok (.flag (t.bits pos.toNat), t) else .error .undefined
  | .turn_on_bit pos => t.put pos true
  | .turn_off_bit pos => t.put pos false
  | .clear => .ok (.unit, { t with bits := fun p => if p < 8 * t.slots then false else t.bits p })
  | .get_set_count => .ok (.count t.count, t)

/-- The bits of the data; without data none is set. -/
def bits (q : QBitMap) (p : ℕ) : Bool := q.data_.any fun data => bitAt data.bytes p

/-- **THE COUNT**: the items and their bits are those of the row, the set bitCount are
    counted, and there are slots for all of them. -/
structure Counted (q : QBitMap) (t : Row) : Prop where
  items : q.item_count_.toNat = t.items
  bits : ∀ p, q.bits p = t.bits p
  set_count : q.set_count_.toNat = t.count
  slots : q.item_count_.toNat ≤ q.slot_count_.toNat * 8

/-- The data are there, or are not, as in the row, with a byte for every slot. -/
structure Stored (q : QBitMap) (t : Row) : Prop where
  data : q.data_.isSome = t.data
  mount : q.mount_ = t.mount
  room : ∀ data ∈ q.data_, q.slot_count_.toNat = t.slots ∧ data.Has t.slots
  no_data : q.data_ = none → (q.slot_count_ = 0 ↔ q.item_count_ = 0)

/-- The map stands for the row. -/
abbrev Agrees (q : QBitMap) (t : Row) : Prop := Counted q t ∧ Stored q t

/-- The last count whose slots can be computed. -/
def MAX_ITEMS : ℕ := 0xFFFFFFF8

/-- The item counts can be rounded up, what is mounted has as many set bits as were
    counted before, and there are data where a bit is touched. -/
def Keeps (_ : QBitMap) (t : Row) : Call → Prop
  | .make item_count _ => item_count.toNat ≤ MAX_ITEMS
  | .mount item_count bitmap_data _ =>
    (t.data = true ∧ t.mount = false) ∨
      (item_count.toNat ≤ MAX_ITEMS ∧ bitCount (mounted bitmap_data) item_count.toNat = t.count)
  | .alloc item_count _ => t.data = true ∨ item_count.toNat ≤ MAX_ITEMS
  | .bit pos => t.data = true ∨ t.items ≤ pos.toNat
  | .turn_on_bit pos => t.data = true ∨ t.items ≤ pos.toNat
  | .turn_off_bit pos => t.data = true ∨ t.items ≤ pos.toNat
  | .clear => t.data = true ∨ t.items = 0
  | _ => True

/-! ## §3. Bytes and slots. -/

section Bytes

variable {bytes : Memory} {p r n : ℕ} {byte m m' b : UInt8}

/-- Every mask has its bit. -/
theorem mask_ne_zero (hr : r < 8) : BITMAP_MASK.getD r 0 ≠ 0 := by
  have hall : ∀ r < 8, BITMAP_MASK.getD r 0 ≠ 0 := by decide
  exact hall r hr

/-- Two masks share no bit. -/
theorem mask_and_mask (hr : r < 8) (hp : p < 8) (hne : r ≠ p) :
    BITMAP_MASK.getD p 0 &&& BITMAP_MASK.getD r 0 = 0 := by
  have hall : ∀ r < 8, ∀ p < 8, r ≠ p → BITMAP_MASK.getD p 0 &&& BITMAP_MASK.getD r 0 = 0 := by decide
  exact hall r hr p hp hne

/-- Without one mask the others stay. -/
theorem not_mask_and_mask (hr : r < 8) (hp : p < 8) (hne : r ≠ p) :
    ~~~BITMAP_MASK.getD p 0 &&& BITMAP_MASK.getD r 0 = BITMAP_MASK.getD r 0 := by
  have hall : ∀ r < 8, ∀ p < 8, r ≠ p →
      ~~~BITMAP_MASK.getD p 0 &&& BITMAP_MASK.getD r 0 = BITMAP_MASK.getD r 0 := by decide
  exact hall r hr p hp hne

theorem or_and (b m m' : UInt8) : (b ||| m) &&& m' = (b &&& m') ||| (m &&& m') := by
  apply UInt8.toBitVec_inj.mp
  ext i
  simp [Bool.and_or_distrib_right]

theorem bitAt_eq_false_iff :
    bitAt bytes p = false ↔ bytes (p / 8) &&& BITMAP_MASK.getD (p % 8) 0 = 0 := bne_eq_false_iff_eq

/-- **ONE BYTE SET**, which has another bit of its own and the others as they were. -/
theorem bitAt_update {v : Bool} (hself : ((byte &&& BITMAP_MASK.getD (p % 8) 0) != 0) = v)
    (hother : ∀ r < 8, r ≠ p % 8 →
      byte &&& BITMAP_MASK.getD r 0 = bytes (p / 8) &&& BITMAP_MASK.getD r 0) (r : ℕ) :
    bitAt (update bytes (p / 8) byte) r = update (bitAt bytes) p v r := by
  unfold bitAt
  by_cases hrp : r = p
  · rw [hrp, update_self, update_self, hself]
  rw [update_of_ne hrp]
  by_cases hquot : r / 8 = p / 8
  · rw [hquot, update_self, hother (r % 8) (Nat.mod_lt r (by decide)) (by omega)]
  · rw [update_of_ne hquot]

/-- `|= mask` turns on the one bit. -/
theorem bitAt_or (bytes : Memory) (p : ℕ) :
    ∀ r, bitAt (update bytes (p / 8) (bytes (p / 8) ||| BITMAP_MASK.getD (p % 8) 0)) r
      = update (bitAt bytes) p true r := by
  have hp : p % 8 < 8 := Nat.mod_lt p (by decide)
  apply bitAt_update
  · rw [or_and, UInt8.and_self, bne_iff_ne]
    exact fun h => mask_ne_zero hp (UInt8.or_eq_zero_iff.mp h).2
  · intro r hr hne
    rw [or_and, mask_and_mask hr hp hne, UInt8.or_zero]

/-- `&= ~mask` turns off the one bit. -/
theorem bitAt_and_not (bytes : Memory) (p : ℕ) :
    ∀ r, bitAt (update bytes (p / 8) (bytes (p / 8) &&& ~~~BITMAP_MASK.getD (p % 8) 0)) r
      = update (bitAt bytes) p false r := by
  have hp : p % 8 < 8 := Nat.mod_lt p (by decide)
  apply bitAt_update
  · have hzero : ∀ m : UInt8, ~~~m &&& m = 0 := fun m => by simp
    rw [UInt8.and_assoc, hzero, UInt8.and_zero, bne_self_eq_false]
  · intro r hr hne
    rw [UInt8.and_assoc, not_mask_and_mask hr hp hne]

/-- All bits of a fresh array. -/
theorem bitAt_fill (slot_count : UInt32) (set_flag : Bool) (r : ℕ) :
    bitAt (fill slot_count set_flag).bytes r = set_flag := by
  have hr : r % 8 < 8 := Nat.mod_lt r (by decide)
  have hall : ∀ r < 8, ((0xFF &&& BITMAP_MASK.getD r 0) != 0) = true := by decide
  cases set_flag with
  | true => exact hall (r % 8) hr
  | false =>
    show ((0x00 &&& BITMAP_MASK.getD (r % 8) 0) != 0) = false
    rw [UInt8.zero_and, bne_self_eq_false]

/-- `item_count + 7` wraps around … -/
theorem slots_toNat (item_count : UInt32) : (slots item_count).toNat = (item_count.toNat + 7) % 2 ^ 32 / 8 := by
  show _ >>> 3 = _
  rw [Nat.shiftRight_eq_div_pow]
  show (2 ^ 32 - 1 + (item_count.toNat + 8) % 2 ^ 32) % 2 ^ 32 / 2 ^ 3 = _
  omega

variable {item_count : UInt32}

/-- … but not up to `MAX_ITEMS`. -/
theorem slots_of_le (h : item_count.toNat ≤ MAX_ITEMS) :
    (slots item_count).toNat = (item_count.toNat + 7) / 8 := by
  unfold MAX_ITEMS at h
  rw [slots_toNat]
  omega

/-- **NO SLOTS** for the last counts. -/
theorem slots_of_gt (h : ¬ item_count.toNat ≤ MAX_ITEMS) :
    (slots item_count).toNat = 0 ∧ 0 < item_count.toNat := by
  have hlt := item_count.toNat_lt
  unfold MAX_ITEMS at h
  rw [slots_toNat]
  omega

end Bytes

/-! ## §4. The calls on one bit. -/

section Bits

variable {q : QBitMap} {t : Row} {data : Block} {pos : UInt32}

theorem Counted.lt_iff (h : Counted q t) : pos < q.item_count_ ↔ pos.toNat < t.items := by
  rw [UInt32.lt_iff_toNat_lt, h.items]

theorem Counted.items_lt (h : Counted q t) : t.items < 2 ^ 32 := h.items ▸ q.item_count_.toNat_lt

/-- The array that is there has its slots. -/
theorem Stored.exists_data (h : Stored q t) (hdata : t.data = true) :
    ∃ data, q.data_ = some data ∧ q.slot_count_.toNat = t.slots ∧ data.Has t.slots := by
  obtain ⟨data, heq⟩ := isSome_iff_exists.mp (h.data.trans hdata)
  exact ⟨data, heq, h.room data heq⟩

theorem Stored.data_none (h : Stored q t) (hdata : t.data = false) : q.data_ = none :=
  isNone_iff_eq_none.mp (isSome_eq_false_iff.mp (h.data.trans hdata))

/-- The slot of a bit that exists is inside the array. -/
theorem get_eq (hroom : data.Has t.slots) (hlt : pos.toNat < t.items) :
    data.get (pos / SLOT_SIZE) = some (data.bytes (pos.toNat / 8)) := by
  have hquot : (pos / SLOT_SIZE).toNat = pos.toNat / 8 := UInt32.toNat_div pos SLOT_SIZE
  have hin : data.Has ((pos / SLOT_SIZE).toNat + 1) := by
    intro size hsize
    have hle := hroom size hsize
    unfold Row.slots at hle
    omega
  rw [Block.get, if_pos hin, hquot]

theorem maskOf_eq (pos : UInt32) : maskOf pos = BITMAP_MASK.getD (pos.toNat % 8) 0 := by
  rfl

/-- A bit that exists is read. -/
theorem bit_eq (hdata : q.data_ = some data) (hroom : data.Has t.slots) (hitems : q.item_count_.toNat = t.items)
    (hlt : pos.toNat < t.items) : q.bit pos = some (bitAt data.bytes pos.toNat) := by
  have hpos : pos < q.item_count_ := by rw [UInt32.lt_iff_toNat_lt, hitems]; exact hlt
  rw [bit, if_pos hpos, hdata, bind_some, get_eq hroom hlt, map_some, maskOf_eq]
  rfl

theorem bits_some (hdata : q.data_ = some data) (p : ℕ) : q.bits p = bitAt data.bytes p := by
  rw [bits, hdata, any_some]

theorem bits_none (hdata : q.data_ = none) (p : ℕ) : q.bits p = false := by
  rw [bits, hdata, any_none]

theorem set_bytes (data : Block) (pos : UInt32) (byte : UInt8) :
    (data.set (pos / SLOT_SIZE) byte).bytes = update data.bytes (pos.toNat / 8) byte := by
  have hquot : (pos / SLOT_SIZE).toNat = pos.toNat / 8 := UInt32.toNat_div pos SLOT_SIZE
  rw [Block.set, hquot]

/-- One slot written. -/
theorem Stored.set (h : Stored q t) (hdata : q.data_ = some data) (quot : UInt32) (byte : UInt8)
    (set_count : UInt32) (f : ℕ → Bool) :
    Stored { q with data_ := some (data.set quot byte), set_count_ := set_count } { t with bits := f } := by
  obtain ⟨hslots, hroom⟩ := h.room data hdata
  refine ⟨?_, h.mount, fun data' hdata' => ?_, fun hnone => ?_⟩
  · rw [← h.data, hdata]
    rfl
  · cases hdata'
    exact ⟨hslots, hroom⟩
  · cases hnone

/-- One bit written, and counted. -/
theorem Counted.set {byte : UInt8} {set_count : UInt32} {v : Bool} (h : Counted q t)
    (hdata : q.data_ = some data) (hbit : ∀ r, bitAt (update data.bytes (pos.toNat / 8) byte) r
      = update (bitAt data.bytes) pos.toNat v r)
    (hcount : set_count.toNat = bitCount (update t.bits pos.toNat v) t.items) :
    Counted { q with data_ := some (data.set (pos / SLOT_SIZE) byte), set_count_ := set_count }
      { t with bits := update t.bits pos.toNat v } := by
  have hbits : bitAt data.bytes = t.bits := funext fun p => (bits_some hdata p).symm.trans (h.bits p)
  refine ⟨h.items, fun p => ?_, hcount, h.slots⟩
  rw [bits_some rfl, set_bytes, hbit, hbits]

/-- A bit that has the value already. -/
theorem agrees_put_same {p : ℕ} {v : Bool} (h : Agrees q t) (hsame : t.bits p = v) :
    Agrees q { t with bits := update t.bits p v } := by
  rw [← hsame, update_eq_self]
  exact h

/-- The byte of a bit that exists, and what the bit's mask shows of it. -/
theorem byte_of_lt (h : Counted q t) (hs : Stored q t) (hkeeps : t.data = true ∨ t.items ≤ pos.toNat)
    (hlt : pos.toNat < t.items) : ∃ data, q.data_ = some data ∧ data.get (pos / SLOT_SIZE) = some (data.bytes (pos.toNat / 8)) ∧
      (data.bytes (pos.toNat / 8) &&& maskOf pos = 0 ↔ t.bits pos.toNat = false) := by
  obtain ⟨data, hdata, -, hroom⟩ := hs.exists_data (hkeeps.resolve_right (by omega))
  refine ⟨data, hdata, get_eq hroom hlt, ?_⟩
  rw [← h.bits, bits_some hdata, bitAt_eq_false_iff, maskOf_eq]

/-- **ONE BIT TURNED ON**, and no other. -/
theorem turn_on_bit_matched (h : Counted q t) (hs : Stored q t) (hkeeps : Keeps q t (.turn_on_bit pos)) :
    Matched Agrees (step q (.turn_on_bit pos)) (row t (.turn_on_bit pos)) := by
  show Matched _ (checked (q.turn_on_bit pos) _) (t.put pos true)
  unfold turn_on_bit Row.put
  by_cases hlt : pos.toNat < t.items
  · obtain ⟨data, hdata, hget, hoff⟩ := byte_of_lt h hs hkeeps hlt
    rw [if_pos (h.lt_iff.mpr hlt), if_pos hlt, hdata, bind_some, hget, map_some, checked_some]
    by_cases hzero : data.bytes (pos.toNat / 8) &&& maskOf pos = 0
    · rw [if_pos hzero]
      have hoff := hoff.mp hzero
      -- one more is counted, of at most `item_count_`
      have hmore : q.set_count_.toNat + 1 < 2 ^ 32 := by
        have hcount : q.set_count_.toNat < t.items := h.set_count ▸ bitCount_lt hlt hoff
        have hitems := h.items_lt
        omega
      refine .answer ⟨h.set hdata (bitAt_or data.bytes pos.toNat) ?_, hs.set hdata _ _ _ _⟩
      rw [bitCount_set hlt hoff, UInt32.toNat_add]
      show (q.set_count_.toNat + 1) % 2 ^ 32 = t.count + 1
      rw [Nat.mod_eq_of_lt hmore, h.set_count]
    · rw [if_neg hzero]
      exact .answer (agrees_put_same ⟨h, hs⟩ (Bool.of_not_eq_false (mt hoff.mpr hzero)))
  · rw [if_neg fun hpos => hlt (h.lt_iff.mp hpos), if_neg hlt]
    exact .stop .undefined

/-- **ONE BIT TURNED OFF**, and no other. -/
theorem turn_off_bit_matched (h : Counted q t) (hs : Stored q t) (hkeeps : Keeps q t (.turn_off_bit pos)) :
    Matched Agrees (step q (.turn_off_bit pos)) (row t (.turn_off_bit pos)) := by
  show Matched _ (checked (q.turn_off_bit pos) _) (t.put pos false)
  unfold turn_off_bit Row.put
  by_cases hlt : pos.toNat < t.items
  · obtain ⟨data, hdata, hget, hoff⟩ := byte_of_lt h hs hkeeps hlt
    rw [if_pos (h.lt_iff.mpr hlt), if_pos hlt, hdata, bind_some, hget, map_some, checked_some]
    by_cases hzero : data.bytes (pos.toNat / 8) &&& maskOf pos = 0
    · rw [if_pos hzero]
      exact .answer (agrees_put_same ⟨h, hs⟩ (hoff.mp hzero))
    rw [if_neg hzero]
    have hfewer := bitCount_unset hlt (Bool.of_not_eq_false (mt hoff.mpr hzero))
    refine .answer ⟨h.set hdata (bitAt_and_not data.bytes pos.toNat) ?_, hs.set hdata _ _ _ _⟩
    have hcount : q.set_count_.toNat = bitCount t.bits t.items := h.set_count
    have hcount_lt := q.set_count_.toNat_lt
    show (2 ^ 32 - 1 + q.set_count_.toNat) % 2 ^ 32 = bitCount (update t.bits pos.toNat false) t.items
    omega
  · rw [if_neg fun hpos => hlt (h.lt_iff.mp hpos), if_neg hlt]
    exact .stop .undefined

/-- **ONE BIT READ.** -/
theorem bit_matched (h : Counted q t) (hs : Stored q t) (hkeeps : Keeps q t (.bit pos)) :
    Matched Agrees (step q (.bit pos)) (row t (.bit pos)) := by
  show Matched _ (checked (q.bit pos) _)
    (if pos.toNat < t.items then .ok (Answer.flag (t.bits pos.toNat), t) else .error .undefined)
  by_cases hlt : pos.toNat < t.items
  · obtain ⟨data, hdata, -, hroom⟩ := hs.exists_data (hkeeps.resolve_right (by omega))
    rw [bit_eq hdata hroom h.items hlt, if_pos hlt, checked_some, ← bits_some hdata, h.bits]
    exact .answer ⟨h, hs⟩
  · rw [bit, if_neg fun hpos => hlt (h.lt_iff.mp hpos), if_neg hlt]
    exact .stop .undefined

/-- Without an array no bit can be used. -/
theorem not_bit_matched (h : Counted q t) (hs : Stored q t) (hbad : ¬ (t.data = true ∨ t.items ≤ pos.toNat)) :
    q.bit pos = none ∧ q.turn_on_bit pos = none ∧ q.turn_off_bit pos = none ∧ pos.toNat < t.items := by
  obtain ⟨hdata, hle⟩ := not_or.mp hbad
  have hlt : pos.toNat < t.items := Nat.lt_of_not_le hle
  have hnone := hs.data_none (Bool.eq_false_iff.mpr hdata)
  refine ⟨?_, ?_, ?_, hlt⟩
  · rw [bit, if_pos (h.lt_iff.mpr hlt), hnone, bind_none]
  · rw [turn_on_bit, if_pos (h.lt_iff.mpr hlt), hnone, bind_none]
  · rw [turn_off_bit, if_pos (h.lt_iff.mpr hlt), hnone, bind_none]

end Bits

/-! ## §5. The calls on all of the bits. -/

section Data

variable {q : QBitMap} {t : Row} {data : Block} {item_count : UInt32} {set_flag mount_flag : Bool}

/-- Up to `MAX_ITEMS` there are slots for all items … -/
theorem slots_enough (h : item_count.toNat ≤ MAX_ITEMS) : item_count.toNat ≤ (slots item_count).toNat * 8 := by
  rw [slots_of_le h]
  omega

/-- … and beyond it there are not. -/
theorem slots_missing (h : ¬ item_count.toNat ≤ MAX_ITEMS) :
    ¬ item_count.toNat ≤ (slots item_count).toNat * 8 := by
  obtain ⟨hzero, hpos⟩ := slots_of_gt h
  omega

/-- **NEW DATA**, all bits of one kind. -/
theorem filled (h : item_count.toNat ≤ MAX_ITEMS) (set_flag mount_flag : Bool) : Agrees
      { item_count_ := item_count
        slot_count_ := slots item_count
        set_count_ := if set_flag then item_count else 0
        data_ := some (fill (slots item_count) set_flag)
        mount_ := mount_flag }
      { items := item_count.toNat, bits := fun _ => set_flag, data := true, mount := mount_flag } := by
  refine ⟨⟨rfl, fun p => ?_, ?_, slots_enough h⟩, ⟨rfl, rfl, fun data hdata => ?_, fun hnone => ?_⟩⟩
  · rw [bits_some rfl, bitAt_fill]
  · unfold Row.count
    cases set_flag with
    | true => exact (bitCount_true _).symm
    | false => exact (bitCount_false _).symm
  · cases hdata
    refine ⟨slots_of_le h, fun size hsize => ?_⟩
    cases hsize
    exact (slots_of_le h).ge
  · cases hnone

/-- **A NEW ROW.** -/
theorem make_matched (hkeeps : Keeps q t (.make item_count set_flag)) :
    Matched Agrees (step q (.make item_count set_flag)) (row t (.make item_count set_flag)) := by
  rw [step, row, make]
  by_cases hzero : item_count = 0
  · rw [if_neg (not_not.mpr hzero), if_pos hzero]
    exact .stop .undefined
  · rw [if_pos hzero, if_neg hzero]
    exact .answer (filled hkeeps set_flag false)

/-- **ITS ALLOCATION**, if it has none. -/
theorem alloc_matched (h : Counted q t) (hs : Stored q t) (hkeeps : Keeps q t (.alloc item_count set_flag)) :
    Matched Agrees (step q (.alloc item_count set_flag)) (row t (.alloc item_count set_flag)) := by
  rw [step, row, alloc, hs.data]
  by_cases hrefuse : (t.data || item_count == 0) = true
  · rw [if_pos hrefuse, if_pos hrefuse]
    exact .answer ⟨h, hs⟩
  rw [if_neg hrefuse, if_neg hrefuse]
  rw [Bool.or_eq_true, not_or] at hrefuse
  rw [← hs.mount]
  exact .answer (filled (hkeeps.resolve_left hrefuse.1) set_flag q.mount_)

/-- **AN EMPTY ROW.** -/
theorem construct_matched (q : QBitMap) (t : Row) (set_flag : Bool) :
    Matched Agrees (step q (.construct set_flag)) (row t (.construct set_flag)) := by
  have hzero : ∀ n, bitCount (fun _ => false) n = 0 := bitCount_false
  cases set_flag with
  | true =>
    refine .answer ⟨⟨rfl, fun p => rfl, (hzero _).symm, by decide⟩, ⟨rfl, rfl, nofun, fun _ => by decide⟩⟩
  | false =>
    refine .answer ⟨⟨rfl, fun p => rfl, (hzero _).symm, by decide⟩, ⟨rfl, rfl, nofun, fun _ => by decide⟩⟩

/-- **A COPY.** -/
theorem duplicate_matched (h : Counted q t) (hs : Stored q t) :
    Matched Agrees (step q .duplicate) (row t .duplicate) := by
  rw [step, row, duplicate]
  cases hdata : q.data_ with
  | none =>
    refine .answer ⟨⟨h.items, fun p => ?_, h.set_count, h.slots⟩, ⟨?_, rfl, nofun, fun _ => hs.no_data hdata⟩⟩
    · rw [← h.bits, bits_none hdata, bits_none rfl]
    · rw [← hs.data, hdata]
  | some data =>
    obtain ⟨hslots, hroom⟩ := hs.room data hdata
    dsimp only
    rw [if_pos (hslots ▸ hroom)]
    refine .answer ⟨⟨h.items, fun p => ?_, h.set_count, h.slots⟩, ⟨?_, rfl, fun data' hdata' => ?_, nofun⟩⟩
    · rw [← h.bits, bits_some hdata, bits_some rfl]
    · rw [← hs.data, hdata]
      rfl
    · cases hdata'
      refine ⟨hslots, fun size hsize => ?_⟩
      cases hsize
      exact hslots.ge

theorem mount_eq (hs : Stored q t) (hfree : ¬ (!t.mount && t.data) = true) (bitmap_data : Option Memory) :
    q.mount item_count bitmap_data mount_flag = some
      { q with
        data_ := bitmap_data.map fun bytes => ⟨bytes, none⟩
        mount_ := mount_flag
        item_count_ := item_count
        slot_count_ := slots item_count } := by
  rw [mount, hs.data, hs.mount, if_neg hfree]

/-- **AN ARRAY MOUNTED.** -/
theorem mount_matched {bitmap_data : Option Memory} (h : Counted q t) (hs : Stored q t)
    (hkeeps : Keeps q t (.mount item_count bitmap_data mount_flag)) :
    Matched Agrees (step q (.mount item_count bitmap_data mount_flag))
      (row t (.mount item_count bitmap_data mount_flag)) := by
  rw [step, row]
  by_cases hrefuse : (!t.mount && t.data) = true
  · rw [mount, hs.data, hs.mount, if_pos hrefuse, if_pos hrefuse]
    exact .stop .undefined
  rw [mount_eq hs hrefuse, if_neg hrefuse, checked_some]
  obtain ⟨hle, hcount⟩ : item_count.toNat ≤ MAX_ITEMS ∧
      bitCount (mounted bitmap_data) item_count.toNat = t.count := by
    refine hkeeps.resolve_left fun hfree => hrefuse ?_
    rw [hfree.1, hfree.2]
    rfl
  refine .answer ⟨⟨rfl, fun p => ?_, h.set_count.trans hcount.symm, slots_enough hle⟩,
    ⟨isSome_map, rfl, fun data hdata => ?_, fun _ => ?_⟩⟩
  · cases bitmap_data with
    | none => rfl
    | some bytes => rfl
  · obtain ⟨bytes, -, hbytes⟩ := map_eq_some_iff.mp hdata
    rw [← hbytes]
    exact ⟨slots_of_le hle, nofun⟩
  · show slots item_count = 0 ↔ item_count = 0
    rw [← UInt32.toNat_inj, ← UInt32.toNat_inj, slots_of_le hle]
    show (item_count.toNat + 7) / 8 = 0 ↔ item_count.toNat = 0
    omega

/-- **THE SET BITS COUNTED ANEW.** -/
theorem recount_eq {f : ℕ → Bool} (hdata : q.data_ = some data) (hroom : data.Has t.slots)
    (hitems : q.item_count_.toNat = t.items) (hbits : ∀ p, bitAt data.bytes p = f p) :
    q.recount = some (UInt32.ofNat (bitCount f t.items)) := by
  unfold recount
  rw [hitems]
  apply foldlM_bitCount UInt32.ofNat
  · intro k
    exact (UInt32.ofNat_add k 1).symm
  · intro p hp
    have hlt := q.item_count_.toNat_lt
    have hpos : (UInt32.ofNat p).toNat = p := by
      rw [UInt32.toNat_ofNat', Nat.mod_eq_of_lt (by omega)]
    rw [bit_eq hdata hroom hitems (by rw [hpos]; exact hp), hpos, hbits]

/-- The bits that a copy covers. -/
theorem bitAt_write (bytes bitmap_data : Memory) (n p : ℕ) :
    bitAt (bytes.write 0 (bitmap_data.read 0 n)) p = if p < 8 * n then bitAt bitmap_data p else bitAt bytes p := by
  unfold bitAt Memory.write
  rw [Memory.length_read, Nat.zero_add, Nat.sub_zero]
  by_cases hp : p < 8 * n
  · have hquot : p / 8 < n := by omega
    rw [if_pos hp, if_pos ⟨Nat.zero_le _, hquot⟩, Memory.read, List.getD_eq_getElem _ _ (by simpa using hquot),
      List.getElem_map, List.getElem_range, Nat.zero_add]
  · rw [if_neg hp, if_neg (by omega)]

/-- The bits that are cleared. -/
theorem bitAt_zeroed (bytes : Memory) (n p : ℕ) :
    bitAt (fun i => if i < n then 0 else bytes i) p = if p < 8 * n then false else bitAt bytes p := by
  show (((if p / 8 < n then 0 else bytes (p / 8)) &&& BITMAP_MASK.getD (p % 8) 0) != 0)
    = if p < 8 * n then false else (bytes (p / 8) &&& BITMAP_MASK.getD (p % 8) 0) != 0
  by_cases hp : p < 8 * n
  · rw [if_pos hp, if_pos (by omega), UInt8.zero_and, bne_self_eq_false]
  · rw [if_neg hp, if_neg (by omega)]

/-- **A COPY INTO THE ARRAY.** -/
theorem copy_matched {slot_count : UInt32} {bitmap_data : Memory} (h : Counted q t) (hs : Stored q t) :
    Matched Agrees (step q (.copy slot_count bitmap_data)) (row t (.copy slot_count bitmap_data)) := by
  rw [step, row, copy]
  cases hdata : q.data_ with
  | none =>
    have hfalse : t.data = false := by
      rw [← hs.data, hdata]
      rfl
    rw [hfalse]
    exact .answer ⟨h, hs⟩
  | some data =>
    obtain ⟨hslots, hroom⟩ := hs.room data hdata
    have htrue : t.data = true := by
      rw [← hs.data, hdata]
      rfl
    dsimp only
    rw [htrue]
    by_cases hsame : q.slot_count_ = slot_count
    · have hslots' : t.slots = slot_count.toNat := by rw [← hslots, hsame]
      have hitems := h.items_lt
      have hle := bitCount_le (fun p => if p < 8 * t.slots then bitAt bitmap_data p else t.bits p) t.items
      have hbits : ∀ p, bitAt (data.bytes.write 0 (bitmap_data.read 0 slot_count.toNat)) p
          = if p < 8 * t.slots then bitAt bitmap_data p else t.bits p := by
        intro p
        rw [bitAt_write, hslots', ← bits_some hdata, h.bits]
      have hrecount : recount
          { q with data_ := some ⟨data.bytes.write 0 (bitmap_data.read 0 slot_count.toNat), data.size⟩ }
            = some (UInt32.ofNat _) := recount_eq rfl hroom h.items hbits
      rw [if_neg (not_not.mpr hsame), if_pos (hslots' ▸ hroom), hrecount, map_some, checked_some]
      rw [if_neg (by rw [hslots']; simp)]
      refine .answer ⟨⟨h.items, fun p => ?_, ?_, h.slots⟩, ⟨rfl, hs.mount, fun data' hdata' => ?_, nofun⟩⟩
      · rw [bits_some rfl]
        exact hbits p
      · show (UInt32.ofNat _).toNat = _
        rw [UInt32.toNat_ofNat', Nat.mod_eq_of_lt (by omega)]
        rfl
      · cases hdata'
        exact ⟨hslots, hroom⟩
    · have hne : (t.slots != slot_count.toNat) = true := by
        rw [bne_iff_ne, ← hslots]
        exact fun heq => hsame (UInt32.toNat_inj.mp heq)
      rw [if_pos hsame, hne]
      exact .answer ⟨h, hs⟩

/-- **ALL BITS CLEARED.** -/
theorem clear_matched (h : Counted q t) (hs : Stored q t) (hkeeps : Keeps q t .clear) :
    Matched Agrees (step q .clear) (row t .clear) := by
  rw [step, row, clear]
  cases hdata : q.data_ with
  | none =>
    have hfalse : t.data = false := by
      rw [← hs.data, hdata]
      rfl
    have hitems : t.items = 0 := hkeeps.resolve_left (by rw [hfalse]; exact Bool.false_ne_true)
    have hzero : q.item_count_ = 0 := UInt32.toNat_inj.mp (h.items.trans hitems)
    rw [if_pos ((hs.no_data hdata).mpr hzero), checked_some]
    refine .answer ⟨⟨h.items, fun p => ?_, ?_, h.slots⟩, ⟨?_, hs.mount, nofun, fun _ => hs.no_data hdata⟩⟩
    · show false = if p < 8 * t.slots then false else t.bits p
      rw [← h.bits, bits_none hdata, ite_self]
    · show 0 = bitCount _ t.items
      rw [hitems, bitCount_zero]
    · rw [← hs.data, hdata]
  | some data =>
    obtain ⟨hslots, hroom⟩ := hs.room data hdata
    dsimp only
    rw [if_pos (hslots ▸ hroom), checked_some]
    refine .answer ⟨⟨h.items, fun p => ?_, ?_, h.slots⟩, ⟨?_, hs.mount, fun data' hdata' => ?_, nofun⟩⟩
    · show bitAt (fun i => if i < q.slot_count_.toNat then 0 else data.bytes i) p
        = if p < 8 * t.slots then false else t.bits p
      rw [← h.bits, bits_some hdata, ← hslots]
      exact bitAt_zeroed data.bytes q.slot_count_.toNat p
    · have hnone : ∀ p < t.items, (if p < 8 * t.slots then false else t.bits p) = false := by
        intro p hp
        rw [if_pos (by unfold Row.slots; omega)]
      show 0 = bitCount _ t.items
      have hzero : bitCount (fun p => if p < 8 * t.slots then false else t.bits p) t.items
          = bitCount (fun _ => false) t.items := bitCount_congr hnone
      rw [hzero, bitCount_false]
    · rw [← hs.data, hdata]
      rfl
    · cases hdata'
      exact ⟨hslots, hroom⟩

end Data

/-! ## §6. Histories. -/

section Histories

variable {q : QBitMap} {t : Row}

/-- **THE CALLS OF A ROW OF BITS.** -/
theorem step_matched (h : Counted q t) (hs : Stored q t) {c : Call} (hkeeps : Keeps q t c) :
    Matched Agrees (step q c) (row t c) := by
  cases c with
  | construct set_flag => exact construct_matched q t set_flag
  | make item_count set_flag => exact make_matched hkeeps
  | duplicate => exact duplicate_matched h hs
  | mount item_count bitmap_data mount_flag => exact mount_matched h hs hkeeps
  | alloc item_count set_flag => exact alloc_matched h hs hkeeps
  | copy slot_count bitmap_data => exact copy_matched h hs
  | bit pos => exact bit_matched h hs hkeeps
  | turn_on_bit pos => exact turn_on_bit_matched h hs hkeeps
  | turn_off_bit pos => exact turn_off_bit_matched h hs hkeeps
  | clear => exact clear_matched h hs hkeeps
  | get_set_count =>
    rw [step, row, h.set_count]
    exact .answer ⟨h, hs⟩

/-- **THE CALLS THAT ARE NOT.** -/
theorem not_step_counted (h : Counted q t) (hs : Stored q t) {c : Call} (hbad : ¬ Keeps q t c) :
    ¬ Matched Counted (step q c) (row t c) := by
  cases c with
  | make item_count set_flag =>
    have hne : item_count ≠ 0 := by
      intro hzero
      rw [hzero] at hbad
      exact hbad (Nat.zero_le MAX_ITEMS)
    rw [step, row, make, if_pos hne, if_neg hne, checked_some]
    intro hmatched
    exact slots_missing hbad (matched_ok_iff.mp hmatched).2.slots
  | mount item_count bitmap_data mount_flag =>
    obtain ⟨hfree, hbad⟩ := not_or.mp hbad
    have hgo : ¬ (!t.mount && t.data) = true := by
      intro hrefuse
      rw [Bool.and_eq_true, Bool.not_eq_true'] at hrefuse
      exact hfree ⟨hrefuse.2, hrefuse.1⟩
    rw [step, row, mount_eq hs hgo, if_neg hgo, checked_some]
    intro hmatched
    obtain ⟨-, -, hcount, hslots⟩ := (matched_ok_iff.mp hmatched).2
    -- the count is the old one
    refine hbad ⟨?_, hcount.symm.trans h.set_count⟩
    by_contra hle
    exact slots_missing hle hslots
  | alloc item_count set_flag =>
    obtain ⟨hdata, hbad⟩ := not_or.mp hbad
    have hgo : ¬ (t.data || item_count == 0) = true := by
      rw [Bool.or_eq_true, beq_iff_eq]
      intro hrefuse
      have hzero := hrefuse.resolve_left hdata
      rw [hzero] at hbad
      exact hbad (Nat.zero_le MAX_ITEMS)
    rw [step, row, alloc, hs.data, if_neg hgo, if_neg hgo]
    intro hmatched
    exact slots_missing hbad (matched_ok_iff.mp hmatched).2.slots
  | bit pos =>
    obtain ⟨hbit, -, -, hlt⟩ := not_bit_matched h hs hbad
    rw [step, row, hbit, if_pos hlt]
    exact not_matched_error_ok
  | turn_on_bit pos =>
    obtain ⟨-, hbit, -, hlt⟩ := not_bit_matched h hs hbad
    rw [step, row, hbit, Row.put, if_pos hlt]
    exact not_matched_error_ok
  | turn_off_bit pos =>
    obtain ⟨-, -, hbit, hlt⟩ := not_bit_matched h hs hbad
    rw [step, row, hbit, Row.put, if_pos hlt]
    exact not_matched_error_ok
  | clear =>
    obtain ⟨hdata, hitems⟩ := not_or.mp hbad
    have hnone := hs.data_none (Bool.eq_false_iff.mpr hdata)
    have hslots : q.slot_count_ ≠ 0 := by
      intro hzero
      have hcount := (hs.no_data hnone).mp hzero
      rw [← h.items, hcount] at hitems
      exact hitems rfl
    rw [step, row, clear, hnone]
    rw [if_neg hslots]
    exact not_matched_error_ok
  | construct set_flag | duplicate | copy slot_count bitmap_data | get_set_count => exact absurd trivial hbad

/-- **THE COUNT IS THAT OF THE SET BITS** over every history, with slots for all
    items and single bits changed one by one, exactly when the item counts leave room
    for the rounding, what is mounted has as many set bits as were counted before,
    and a bit is only touched where there are data. -/
theorem history_counted_iff (cs : List Call) :
    (∀ n, Matched Counted (history step (construct false) (cs.take n)) (history row {} (cs.take n))) ↔
      Calls step row Keeps (construct false) {} cs := by
  have hnew : Agrees (construct false) {} :=
    (matched_ok_iff.mp (construct_matched (construct false) {} false)).2
  have hany : Calls step row (fun _ _ _ => True) (construct false) {} cs :=
    Calls.of_invariant (fun _ => True) (fun _ _ _ _ _ _ => trivial) (fun _ _ _ _ => trivial) cs _ _ trivial
  refine matched_iff_calls Stored ?_ ?_ hnew.1 hnew.2 hany
  · intro q t c h hs _ hkeeps
    exact step_matched h hs hkeeps
  · intro q t c h hs _ hbad
    exact not_step_counted h hs hbad

/-- Three bits are turned on, and the data of the copy replaced. -/
example : answers (history step (construct false) [.make 20 false, .turn_on_bit 0, .turn_on_bit 9,
      .turn_on_bit 9, .turn_on_bit 19, .get_set_count, .duplicate, .copy 3 (fun _ => 0xF0), .get_set_count])
    = some [.unit, .unit, .unit, .unit, .unit, .count 3, .unit, .flag true, .count 12] := by decide

/-- A byte with all bits set is mounted: none of them is counted. -/
theorem mount_uncounted :
    ¬ ∀ cs : List Call, Matched Counted (history step (construct false) cs) (history row {} cs) := by
  intro h
  have hmatched := h [.mount 8 (some fun _ => 0xFF) true, .get_set_count]
  have hwrong : answers (history step (construct false) [.mount 8 (some fun _ => 0xFF) true, .get_set_count])
      ≠ answers (history row {} [.mount 8 (some fun _ => 0xFF) true, .get_set_count]) := by decide
  exact hwrong hmatched.answers_eq

end Histories

end QBitMap

end KalavaPir.Common
