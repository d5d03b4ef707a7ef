/-
  KalavaPir.Common.QBufferRuns — the buffer of `common/qbuffer.h` in the hands of any
  caller.

  Beside the buffer a state has the number of bytes that `malloc` gave for the block.
  A call of `expand` or `shrink` comes with what `malloc` returns to its request, if
  it makes one; a caller of `pour` wrote the bytes through `get_free()` first.  An
  address is a number below 2⁶⁴, so a sum of the block's address and a `uint64_t`
  can wrap around.  A call whose assertion fails ends the program: the calls of a
  history are those whose assertions hold.
-/
import KalavaPir.Common.Int64
import KalavaPir.Common.QBuffer
import KalavaPir.Framework.Histories

namespace KalavaPir.Common

open KalavaPir.Framework List Option

/-! ## §1. The buffer and its calls (qbuffer.h:54). -/

/-- A buffer, and how many bytes its block has. -/
structure BlockBuffer where
  buffer : QBuffer
  room : ℕ

namespace BlockBuffer

/-- `QBuffer()`. -/
def new : BlockBuffer := ⟨QBuffer.new, 0⟩

/-- `free_length*4<data_length`; `none` where the product overflows. -/
def sparse (free_length data_length : ℤ) : Option Bool :=
  (int64 (free_length * 4)).map fun quadruple => decide (quadruple < data_length)

/-- The heuristic of `expand`: a larger block, or the bytes moved to the front. -/
def grows (b : QBuffer) (need : ℤ) : Option Bool :=
  let free_length := b.get_free_length + b.pdata_
  if free_length < need then some true else sparse free_length b.get_data_length

/-- `expand(need)`; the block that `malloc` returns first is not checked. -/
def expand (malloc : Option Memory) (s : BlockBuffer) (need : ℤ) : Option BlockBuffer :=
  match s.buffer.pstart_ with
  | none =>
    (QBuffer.double need QBuffer.rounds QBuffer.DEFAULT_MALLOC_SIZE).map fun length =>
      ⟨{ pstart_ := malloc, pend_ := length.toNat, pfree_ := 0, pdata_ := 0 },
        if malloc.isSome then length.toNat else 0⟩
  | some block =>
    if s.buffer.get_free_length < need then
      let data_length := s.buffer.get_data_length
      let kept := block.read s.buffer.pdata_ data_length.toNat
      (grows s.buffer need).bind fun larger =>
        if larger then
          if 2 * s.buffer.get_buf_length < 2 ^ 63 then
            (QBuffer.double (need + data_length) QBuffer.rounds (2 * s.buffer.get_buf_length)).bind
              fun buf_size => malloc.map fun newbuf =>
                ⟨{ pstart_ := some (newbuf.write 0 kept), pend_ := buf_size.toNat
                   pfree_ := data_length.toNat, pdata_ := 0 }, buf_size.toNat⟩
          else none
        else
          some { s with buffer :=
            { s.buffer with pstart_ := some (block.write 0 kept), pfree_ := data_length.toNat, pdata_ := 0 } }
    else some s

/-- Bytes written through `get_free()`, and `pour` of as many. -/
def pour (s : BlockBuffer) (bytes : List UInt8) : Option BlockBuffer :=
  match s.buffer.pstart_ with
  | none => (s.buffer.pour bytes.length).map fun r => { s with buffer := r.2 }
  | some block =>
    ((s.buffer.storeFree (Memory.write (fun i => block (s.buffer.pfree_ + i)) 0 bytes)).pour bytes.length).map
      fun r => { s with buffer := r.2 }

/-- `drain(length)` of the block at the address `base`; `none` for a pointer in front
    of the block. -/
def drain (base : ℕ) (s : BlockBuffer) (length : ℕ) : Option BlockBuffer :=
  match s.buffer.pstart_ with
  | none => some s
  | some _ =>
    let pdata := (base + s.buffer.pdata_ + length) % 2 ^ 64
    if base + s.buffer.pfree_ ≤ pdata then some { s with buffer := s.buffer.clear }
    else if base ≤ pdata then some { s with buffer := { s.buffer with pdata_ := pdata - base } }
    else none

/-- `strip(length)`, where its assertion holds; `none` for a pointer in front of the
    block. -/
def strip (s : BlockBuffer) (length : ℕ) : Option BlockBuffer :=
  match s.buffer.pstart_ with
  | none => some s
  | some _ =>
    if length ≤ s.buffer.pfree_ then some { s with buffer := { s.buffer with pfree_ := s.buffer.pfree_ - length } }
    else none

/-- Smaller blocks do not shrink. -/
def SHRINK_BUFFER_SIZE : ℤ := 2048

/-- `shrink()` goes on to a block of `SHRINK_BUFFER_SIZE` bytes. -/
def Shrinks (b : QBuffer) : Prop :=
  b.pstart_.isSome = true ∧ ¬ (b.get_buf_length ≤ SHRINK_BUFFER_SIZE ∨ b.get_data_length ≤ SHRINK_BUFFER_SIZE)

instance (b : QBuffer) : Decidable (Shrinks b) := inferInstanceAs (Decidable (_ ∧ _))

/-- `shrink()`; `none` for a copy that leaves the new block. -/
def shrink (malloc : Option Memory) (s : BlockBuffer) : Option BlockBuffer :=
  if Shrinks s.buffer then
    let old_length := max 0 s.buffer.get_data_length
    if old_length ≤ SHRINK_BUFFER_SIZE then
      malloc.bind fun newbuf => s.buffer.pstart_.map fun block =>
        ⟨{ pstart_ := some (newbuf.write 0 (block.read s.buffer.pdata_ old_length.toNat))
           pend_ := SHRINK_BUFFER_SIZE.toNat, pfree_ := old_length.toNat, pdata_ := 0 },
          SHRINK_BUFFER_SIZE.toNat⟩
    else none
  else some s

/-- `clear()`. -/
def clear (s : BlockBuffer) : BlockBuffer := { s with buffer := s.buffer.clear }

/-- The calls, each with what its caller and the heap add to it. -/
inductive Call
  | expand (malloc : Option Memory) (need : ℤ)
  | pour (bytes : List UInt8)
  | drain (base length : ℕ)
  | strip (length : ℕ)
  | shrink (malloc : Option Memory)
  | clear

/-- A call; the caller of `expand` sees whether there is the room it asked for. -/
def step (s : BlockBuffer) : Call → Except Stop (Bool × BlockBuffer)
  | .expand malloc need => checked (s.expand malloc need) fun s => .ok (decide (need ≤ s.buffer.get_free_length), s)
  | .pour bytes => checked (s.pour bytes) fun s => .ok (true, s)
  | .drain base length => checked (s.drain base length) fun s => .ok (true, s)
  | .strip length => checked (s.strip length) fun s => .ok (true, s)
  | .shrink malloc => checked (s.shrink malloc) fun s => .ok (true, s)
  | .clear => .ok (true, s.clear)

/-- The calls of a history: their arguments are of their types, the block is in the
    address space, a caller pours no more than there is room for, and the assertions
    of `strip`, `expand` and `shrink` hold. -/
def Passes (s : BlockBuffer) : Call → Prop
  | .expand malloc need => 0 ≤ need ∧ IsInt64 need ∧
      (s.buffer.pstart_ ≠ none → s.buffer.get_free_length < need → grows s.buffer need = some true →
        malloc ≠ none)
  | .pour bytes => (bytes.length : ℤ) ≤ s.buffer.get_free_length
  | .drain base length => base + s.buffer.pend_ < 2 ^ 64 ∧ length < 2 ^ 64
  | .strip length => s.buffer.pdata_ + length ≤ s.buffer.pend_
  | .shrink malloc => Shrinks s.buffer → malloc ≠ none
  | .clear => True

instance (s : BlockBuffer) (l : Call) : Decidable (Passes s l) := by
  cases l <;> unfold Passes <;> infer_instance

/-! ## §2. The bytes. -/

/-- The same calls on the bytes that were poured and not yet taken. -/
def bytes (t : List UInt8) : Call → Except Stop (Bool × List UInt8)
  | .expand _ _ => .ok (true, t)
  | .pour w => .ok (true, t ++ w)
  | .drain _ length => .ok (true, t.drop length)
  | .strip length => .ok (true, t.take (t.length - length))
  | .shrink _ => .ok (true, t)
  | .clear => .ok (true, [])

/-- **THE REPRESENTATION**: the pointers stand in order inside the block, and the
    bytes can be read. -/
structure Shows (s : BlockBuffer) (t : List UInt8) : Prop where
  order : s.buffer.pdata_ ≤ s.buffer.pfree_ ∧ s.buffer.pfree_ ≤ s.buffer.pend_
  inside : s.buffer.pend_ ≤ s.room
  null : s.buffer.pstart_ = none → s.room = 0
  length : s.buffer.pfree_ - s.buffer.pdata_ = t.length
  bytes : ∀ block, s.buffer.pstart_ = some block → block.read s.buffer.pdata_ t.length = t

/-- The first block is there, and its size and the lengths it is compared with stay
    inside an `int64_t`; a drain does not wrap around; no more is stripped than was
    poured; and a buffer with more than `SHRINK_BUFFER_SIZE` bytes is not shrunk. -/
def Keeps (s : BlockBuffer) (t : List UInt8) : Call → Prop
  | .expand malloc need =>
    s.buffer.Fits need ∧ (s.buffer.pstart_ = none → malloc ≠ none) ∧
      (s.buffer.pstart_ ≠ none → s.buffer.get_free_length < need → grows s.buffer need ≠ none)
  | .pour _ => True
  | .drain base length => s.buffer.pstart_ ≠ none → base + s.buffer.pdata_ + length < 2 ^ 64
  | .strip length => length ≤ t.length
  | .shrink _ => (t.length : ℤ) ≤ SHRINK_BUFFER_SIZE
  | .clear => True

instance (b : QBuffer) (need : ℤ) : Decidable (b.Fits need) := by
  unfold QBuffer.Fits
  cases b.pstart_ <;> infer_instance

instance (s : BlockBuffer) (t : List UInt8) (l : Call) : Decidable (Keeps s t l) := by
  cases l <;> unfold Keeps <;> infer_instance

/-! ## §3. One call. -/

section Calls

variable {s s' : BlockBuffer} {t : List UInt8} {malloc : Option Memory} {need : ℤ} {base length : ℕ}

/-- **THE INVARIANT**: the bytes are in the buffer, whose block ends where `pend_` is. -/
structure Kept (s : BlockBuffer) (t : List UInt8) : Prop where
  holds : s.buffer.Holds t
  room : s.room = s.buffer.pend_
  null : s.buffer.pstart_ = none → s.buffer.pend_ = 0

theorem kept_new : Kept new [] := ⟨QBuffer.holds_new, rfl, fun _ => rfl⟩

/-- The invariant is enough. -/
theorem Kept.shows (h : Kept s t) : Shows s t := by
  obtain ⟨hholds, hroom, hnull⟩ := h
  have hlen := hholds.length
  have hin := hholds.within
  exact ⟨⟨by omega, hin⟩, by omega, fun hstart => by rw [hroom]; exact hnull hstart, by omega, hholds.bytes⟩

/-- What the heuristic says where nothing overflows. -/
theorem grows_eq_some {b : QBuffer} {larger : Bool} (h : grows b need = some larger) :
    larger = true ↔ b.get_free_length + b.pdata_ < need ∨
      (b.get_free_length + b.pdata_) * 4 < b.get_data_length := by
  unfold grows at h
  dsimp only at h
  split at h
  case isTrue hless =>
    cases h
    exact iff_of_true rfl (Or.inl hless)
  case isFalse hless =>
    obtain ⟨quadruple, hint, rfl⟩ := map_eq_some_iff.mp h
    obtain ⟨-, rfl⟩ := int64_eq_some hint
    rw [decide_eq_true_iff]
    exact ⟨Or.inr, fun hor => hor.resolve_left hless⟩

/-- Where the doubling of `expand` ends. -/
theorem double_eq_some {i : ℕ} {size : ℤ} (hi : i ≤ 62)
    (h : QBuffer.double need QBuffer.rounds (2 ^ i) = some size) : need ≤ 2 ^ 62 := by
  by_contra hgt
  rw [QBuffer.double_of_gt (by omega) QBuffer.rounds hi] at h
  cases h

/-- The sizes of `expand(need)` stay inside an `int64_t`, and memory it asks for is there. -/
def Expands (malloc : Option Memory) (b : QBuffer) (need : ℤ) : Prop :=
  b.Fits need ∧ (b.pstart_ = none → malloc ≠ none) ∧
    (b.pstart_ ≠ none → b.get_free_length < need →
      grows b need ≠ none ∧ (grows b need = some true → malloc ≠ none))

instance (malloc : Option Memory) (b : QBuffer) (need : ℤ) : Decidable (Expands malloc b need) :=
  inferInstanceAs (Decidable (_ ∧ _))

/-- A block with the room needs neither. -/
theorem expands_of_le {b : QBuffer} (hsome : b.pstart_ ≠ none) (hle : need ≤ b.get_free_length) :
    Expands malloc b need := by
  have hnot : ¬ b.get_free_length < need := by omega
  refine ⟨?_, fun hnull => absurd hnull hsome, fun _ hless => absurd hless hnot⟩
  obtain ⟨block, hblock⟩ := ne_none_iff_exists'.mp hsome
  unfold QBuffer.Fits
  rw [hblock]
  exact fun hless => absurd hless hnot

/-- **`expand` makes room** and keeps the bytes … -/
theorem expand_holds (h : s.buffer.Holds t) (hexpands : Expands malloc s.buffer need) :
    ∃ s', s.expand malloc need = some s' ∧ s'.buffer.Holds t ∧ need ≤ s'.buffer.get_free_length ∧
      s'.buffer.pstart_ ≠ none ∧ (s.room = s.buffer.pend_ → s'.room = s'.buffer.pend_) := by
  obtain ⟨hfits, hfirst, hmore⟩ := hexpands
  unfold expand
  unfold QBuffer.Fits at hfits
  cases hstart : s.buffer.pstart_ with
  | none =>
    rw [hstart] at hfits
    obtain ⟨m, hm⟩ := ne_none_iff_exists'.mp (hfirst hstart)
    obtain ⟨i, hi, hi', hrun, hle⟩ := QBuffer.double_of_le hfits QBuffer.rounds (j := 8) (by decide) (by decide)
    have hrun' : QBuffer.double need QBuffer.rounds QBuffer.DEFAULT_MALLOC_SIZE = some (2 ^ i) := hrun
    rw [hrun', hm, map_some, h.nil hstart, QBuffer.toNat_two_pow]
    refine ⟨_, rfl, ?_, ?_, by simp, fun _ => rfl⟩
    · exact ⟨fun block _ => rfl, rfl, Nat.zero_le _, fun hno => absurd hno (by simp),
        fun _ => ⟨i, hi, hi', rfl⟩⟩
    · show need ≤ ((2 ^ i : ℕ) : ℤ) - ((0 : ℕ) : ℤ)
      push_cast
      omega
  | some block =>
    rw [hstart] at hfits
    dsimp only at hfits ⊢
    have hsome : s.buffer.pstart_ ≠ none := by rw [hstart]; exact nofun
    obtain ⟨i, hi, hi', hend⟩ := h.size hsome
    have hlen := h.length
    have hwithin := h.within
    have hdata : s.buffer.get_data_length.toNat = t.length := by
      rw [h.get_data_length, Int.toNat_natCast]
    by_cases hless : s.buffer.get_free_length < need
    · obtain ⟨hgrows, hmalloc⟩ := hmore hsome hless
      obtain ⟨larger, hlarger⟩ := ne_none_iff_exists'.mp hgrows
      have hheuristic := grows_eq_some hlarger
      have hfree : s.buffer.get_free_length + s.buffer.pdata_ = 2 ^ i - t.length := by
        unfold QBuffer.get_free_length
        rw [hend, hlen]
        push_cast
        omega
      rw [if_pos hless, hlarger, bind_some, hdata, h.bytes block hstart]
      cases larger with
      | true =>
        obtain ⟨hbuf, hneed⟩ := hfits hless (hheuristic.mp rfl)
        obtain ⟨m, hm⟩ := ne_none_iff_exists'.mp (hmalloc hlarger)
        have hbuf' : s.buffer.get_buf_length = 2 ^ i := by
          unfold QBuffer.get_buf_length
          rw [hend]
          rfl
        have hi'' : i < 62 := by
          rw [hbuf', pow_lt_pow_iff_right₀ (by decide)] at hbuf
          exact hbuf
        obtain ⟨j, hj, hj', hrun, hle⟩ := QBuffer.double_of_le hneed QBuffer.rounds (j := i + 1) (by omega)
          (by unfold QBuffer.rounds; omega)
        rw [if_pos rfl, if_pos (by omega), hbuf', ← pow_succ', hrun, bind_some, hm, map_some,
          QBuffer.toNat_two_pow]
        rw [h.get_data_length] at hle
        refine ⟨_, rfl, ?_, ?_, by simp, fun _ => rfl⟩
        · refine QBuffer.holds_front ⟨by omega, hj'⟩ ?_
          have hpow : 2 ^ i ≤ 2 ^ j := Nat.pow_le_pow_right (by decide) (by omega)
          omega
        · show need ≤ ((2 ^ j : ℕ) : ℤ) - (t.length : ℤ)
          push_cast
          omega
      | false =>
        have hnot : ¬ s.buffer.get_free_length + s.buffer.pdata_ < need :=
          fun hlt => Bool.false_ne_true (hheuristic.mpr (Or.inl hlt))
        rw [if_neg Bool.false_ne_true, hend]
        refine ⟨_, rfl, QBuffer.holds_front ⟨hi, hi'⟩ (by omega), ?_, by simp, fun hroom => hroom⟩
        show need ≤ ((2 ^ i : ℕ) : ℤ) - (t.length : ℤ)
        push_cast
        omega
    · rw [if_neg hless]
      exact ⟨s, rfl, h, by omega, hsome, fun hroom => hroom⟩

/-- … or it does not return, or leaves a buffer that has no block though `pend_` says so. -/
theorem expand_lacks (h : s.buffer.Holds t) (hlacks : ¬ Expands malloc s.buffer need)
    (hexpand : s.expand malloc need = some s') :
    s'.buffer.pstart_ = none ∧ s'.room = 0 ∧ 0 < s'.buffer.pend_ := by
  unfold expand at hexpand
  unfold Expands QBuffer.Fits at hlacks
  cases hstart : s.buffer.pstart_ with
  | none =>
    rw [hstart] at hexpand hlacks
    obtain ⟨size, hsize, rfl⟩ := map_eq_some_iff.mp hexpand
    have hle : need ≤ 2 ^ 62 := double_eq_some (i := 8) (by decide) hsize
    have hrefused : malloc = none := by
      by_contra hgiven
      exact hlacks ⟨hle, fun _ => hgiven, fun hno => absurd rfl hno⟩
    obtain ⟨i, -, -, hrun, -⟩ := QBuffer.double_of_le hle QBuffer.rounds (j := 8) (by decide) (by decide)
    have hrun' : QBuffer.double need QBuffer.rounds QBuffer.DEFAULT_MALLOC_SIZE = some (2 ^ i) := hrun
    rw [hrun'] at hsize
    cases hsize
    rw [hrefused, QBuffer.toNat_two_pow]
    exact ⟨rfl, rfl, Nat.two_pow_pos i⟩
  | some block =>
    refine absurd ?_ hlacks
    obtain ⟨i, hi, hi', hend⟩ := h.size (by rw [hstart]; exact nofun)
    have hbuf : s.buffer.get_buf_length = 2 ^ i := by
      unfold QBuffer.get_buf_length
      rw [hend]
      rfl
    rw [hstart] at hexpand ⊢
    dsimp only at hexpand ⊢
    by_cases hless : s.buffer.get_free_length < need
    · rw [if_pos hless] at hexpand
      obtain ⟨larger, hlarger, hmoved⟩ := bind_eq_some_iff.mp hexpand
      have hheuristic := grows_eq_some hlarger
      rw [hlarger]
      cases larger with
      | true =>
        rw [if_pos rfl] at hmoved
        split at hmoved
        case isFalse => cases hmoved
        case isTrue hdouble =>
          obtain ⟨size, hsize, hgiven⟩ := bind_eq_some_iff.mp hmoved
          obtain ⟨m, hm, -⟩ := map_eq_some_iff.mp hgiven
          rw [hbuf] at hdouble
          have hi'' := QBuffer.two_mul_pow_lt.mp hdouble
          rw [hbuf, ← pow_succ'] at hsize
          refine ⟨fun _ _ => ⟨by omega, double_eq_some (by omega) hsize⟩, nofun, fun _ _ => ⟨nofun, fun _ => ?_⟩⟩
          rw [hm]
          exact nofun
      | false =>
        exact ⟨fun _ hor => absurd (hheuristic.mpr hor) Bool.false_ne_true, nofun, fun _ _ => ⟨nofun, nofun⟩⟩
    · exact ⟨fun hlt => absurd hlt hless, nofun, fun _ hlt => absurd hlt hless⟩

/-- `Keeps` asks for this, of the calls of a history. -/
theorem keeps_expand_iff (hpass : Passes s (.expand malloc need)) :
    Keeps s t (.expand malloc need) ↔ Expands malloc s.buffer need := by
  obtain ⟨-, -, hmore⟩ := hpass
  constructor
  · intro hkeep
    obtain ⟨hfits, hfirst, hint⟩ := hkeep
    exact ⟨hfits, hfirst, fun hstart hless => ⟨hint hstart hless, hmore hstart hless⟩⟩
  · intro hexpands
    obtain ⟨hfits, hfirst, hboth⟩ := hexpands
    exact ⟨hfits, hfirst, fun hstart hless => (hboth hstart hless).1⟩

section

variable (h : Kept s t)
include h

/-- A good `expand` keeps it … -/
theorem expand_good (hpass : Passes s (.expand malloc need)) (hkeep : Keeps s t (.expand malloc need)) :
    ∃ s', s.expand malloc need = some s' ∧ Kept s' t ∧ need ≤ s'.buffer.get_free_length := by
  obtain ⟨s', hexpand, hholds, hneed, hsome, hroom⟩ := expand_holds h.holds ((keeps_expand_iff hpass).mp hkeep)
  exact ⟨s', hexpand, ⟨hholds, hroom h.room, fun hnull => absurd hnull hsome⟩, hneed⟩

/-- … and a bad one shows. -/
theorem expand_bad (hpass : Passes s (.expand malloc need)) (hkeep : ¬ Keeps s t (.expand malloc need)) :
    ∀ s', s.expand malloc need = some s' → ¬ Shows s' t := by
  intro s' hexpand hshows
  obtain ⟨-, hroom, hpos⟩ := expand_lacks h.holds (fun hexpands => hkeep ((keeps_expand_iff hpass).mpr hexpands)) hexpand
  have hin := hshows.inside
  omega

/-- **`pour`** appends the bytes. -/
theorem pour_good {w : List UInt8} (hfit : (w.length : ℤ) ≤ s.buffer.get_free_length) :
    ∃ s', s.pour w = some s' ∧ Kept s' (t ++ w) := by
  obtain ⟨hholds, hroom, hnull⟩ := h
  unfold pour
  cases hstart : s.buffer.pstart_ with
  | none =>
    have hend := hnull hstart
    unfold QBuffer.get_free_length at hfit
    have hnil : w = [] := length_eq_zero_iff.mp (by omega)
    rw [hnil] at hfit ⊢
    have hpour : s.buffer.pour ([] : List UInt8).length = some (-1, s.buffer) := by
      unfold QBuffer.pour
      rw [hstart]
      exact if_pos hfit
    rw [hpour, append_nil]
    exact ⟨_, rfl, hholds, hroom, hnull⟩
  | some block =>
    obtain ⟨b, hpour, hholds'⟩ := hholds.put hstart hfit
    dsimp only
    rw [hpour]
    have hsame : b.pend_ = s.buffer.pend_ ∧ b.pstart_ ≠ none := by
      rw [QBuffer.storeFree_write hstart] at hpour
      unfold QBuffer.pour at hpour
      split at hpour
      · cases hpour
        exact ⟨rfl, nofun⟩
      · cases hpour
    refine ⟨_, rfl, hholds', ?_, fun hno => absurd hno hsame.2⟩
    show s.room = b.pend_
    rw [hsame.1, hroom]

theorem clear_good : Kept s.clear [] := by
  obtain ⟨hholds, hroom, hnull⟩ := h
  exact ⟨⟨fun _ _ => rfl, rfl, Nat.zero_le _, fun _ => rfl, hholds.size⟩, hroom, hnull⟩

/-- **`drain`** takes bytes away, if the address does not wrap around … -/
theorem drain_good (hkeep : Keeps s t (.drain base length)) :
    ∃ s', s.drain base length = some s' ∧ Kept s' (t.drop length) := by
  obtain ⟨hholds, hroom, hnull⟩ := h
  have hlen := hholds.length
  have hin := hholds.within
  unfold drain
  cases hstart : s.buffer.pstart_ with
  | none =>
    have hnil := hholds.nil hstart
    rw [hnil] at hholds ⊢
    rw [drop_nil]
    exact ⟨s, rfl, hholds, hroom, hnull⟩
  | some block =>
    have hsome : s.buffer.pstart_ ≠ none := by rw [hstart]; exact nofun
    have hwrap := hkeep hsome
    rw [Nat.mod_eq_of_lt hwrap]
    by_cases hall : t.length ≤ length
    · rw [if_pos (by omega), drop_eq_nil_of_le hall]
      exact ⟨_, rfl, clear_good ⟨hholds, hroom, hnull⟩⟩
    have hsplit : (t.take length ++ t.drop length).length = t.length := by rw [take_append_drop]
    have htake : (t.take length).length = length := by rw [length_take]; omega
    have hbytes := hholds.bytes block hstart
    rw [← hsplit] at hbytes
    have hread := (Memory.read_eq_append (hbytes.trans (take_append_drop length t).symm)).2
    rw [htake] at hread
    rw [if_neg (by omega), if_pos (by omega)]
    refine ⟨_, rfl, ⟨?_, ?_, hin, hholds.null, hholds.size⟩, hroom, hnull⟩
    · intro block' hblock'
      have hsame : s.buffer.pstart_ = some block' := hblock'
      rw [hstart] at hsame
      cases hsame
      show block.read (base + s.buffer.pdata_ + length - base) _ = _
      rw [show base + s.buffer.pdata_ + length - base = s.buffer.pdata_ + length by omega]
      exact hread
    · show s.buffer.pfree_ = base + s.buffer.pdata_ + length - base + (t.drop length).length
      rw [length_drop]
      omega

/-- … and gives bytes back, or leaves the block, if it does. -/
theorem drain_bad (hpass : Passes s (.drain base length)) (hkeep : ¬ Keeps s t (.drain base length)) :
    ∀ s', s.drain base length = some s' → ¬ Shows s' (t.drop length) := by
  obtain ⟨hholds, hroom, hnull⟩ := h
  have hlen := hholds.length
  have hin := hholds.within
  obtain ⟨hspace, hsize⟩ := hpass
  intro s' hdrain hshows
  unfold Keeps at hkeep
  rw [Classical.not_imp] at hkeep
  obtain ⟨hsome, hwrap⟩ := hkeep
  obtain ⟨block, hstart⟩ := ne_none_iff_exists'.mp hsome
  have hmod : (base + s.buffer.pdata_ + length) % 2 ^ 64 = base + s.buffer.pdata_ + length - 2 ^ 64 := by
    rw [Nat.mod_eq_sub_mod (by omega), Nat.mod_eq_of_lt (by omega)]
  unfold drain at hdrain
  rw [hstart] at hdrain
  dsimp only at hdrain
  rw [hmod, if_neg (by omega)] at hdrain
  split at hdrain
  · cases hdrain
    have hcount : s.buffer.pfree_ - (base + s.buffer.pdata_ + length - 2 ^ 64 - base) = (t.drop length).length :=
      hshows.length
    have hdrop := length_drop (i := length) (l := t)
    omega
  · cases hdrain

/-- **`strip`** takes bytes off the end, as many as there are … -/
theorem strip_good (hle : length ≤ t.length) :
    ∃ s', s.strip length = some s' ∧ Kept s' (t.take (t.length - length)) := by
  obtain ⟨hholds, hroom, hnull⟩ := h
  have hlen := hholds.length
  have hin := hholds.within
  have htake : (t.take (t.length - length)).length = t.length - length := by
    rw [length_take]
    omega
  unfold strip
  cases hstart : s.buffer.pstart_ with
  | none =>
    have hnil := hholds.nil hstart
    rw [hnil] at hholds ⊢
    rw [take_nil]
    exact ⟨s, rfl, hholds, hroom, hnull⟩
  | some block =>
    have hsome : s.buffer.pstart_ ≠ none := by rw [hstart]; exact nofun
    have hbytes := hholds.bytes block hstart
    have hsplit : (t.take (t.length - length) ++ t.drop (t.length - length)).length = t.length := by
      rw [take_append_drop]
    rw [← hsplit] at hbytes
    have hread := (Memory.read_eq_append (hbytes.trans (take_append_drop _ t).symm)).1
    rw [if_pos (by omega)]
    refine ⟨_, rfl, ⟨?_, ?_, ?_, fun hno => absurd hno hsome, hholds.size⟩, hroom, hnull⟩
    · intro block' hblock'
      have hsame : s.buffer.pstart_ = some block' := hblock'
      rw [hstart] at hsame
      cases hsame
      exact hread
    · show s.buffer.pfree_ - length = s.buffer.pdata_ + (t.take (t.length - length)).length
      omega
    · show s.buffer.pfree_ - length ≤ s.buffer.pend_
      omega

/-- … and puts `pfree_` in front of `pdata_`, if there are fewer. -/
theorem strip_bad (hpass : Passes s (.strip length)) (hlt : t.length < length) :
    ∀ s' t', s.strip length = some s' → ¬ Shows s' t' := by
  obtain ⟨hholds, hroom, hnull⟩ := h
  have hlen := hholds.length
  have hassert : s.buffer.pdata_ + length ≤ s.buffer.pend_ := hpass
  intro s' t' hstrip hshows
  unfold strip at hstrip
  cases hstart : s.buffer.pstart_ with
  | none =>
    have hend := hnull hstart
    omega
  | some block =>
    rw [hstart] at hstrip
    dsimp only at hstrip
    split at hstrip
    · cases hstrip
      have horder : s.buffer.pdata_ ≤ s.buffer.pfree_ - length := hshows.order.1
      omega
    · cases hstrip

/-- **`shrink`** does nothing, or it copies more bytes than the new block has. -/
theorem shrink_eq : s.shrink malloc = if (t.length : ℤ) ≤ SHRINK_BUFFER_SIZE then some s else none := by
  obtain ⟨hholds, hroom, hnull⟩ := h
  have hdata := hholds.get_data_length
  have hlen := hholds.length
  have hin := hholds.within
  unfold shrink
  by_cases hle : (t.length : ℤ) ≤ SHRINK_BUFFER_SIZE
  · have hnot : ¬ Shrinks s.buffer := fun hand => hand.2 (Or.inr (by rw [hdata]; exact hle))
    rw [if_pos hle, if_neg hnot]
  have hmax : SHRINK_BUFFER_SIZE = 2048 := rfl
  have hsome : s.buffer.pstart_.isSome = true := by
    cases hstart : s.buffer.pstart_ with
    | none =>
      have hend := hholds.null hstart
      omega
    | some block => rfl
  have hlarge : ¬ s.buffer.get_buf_length ≤ SHRINK_BUFFER_SIZE := by
    unfold QBuffer.get_buf_length
    omega
  have hyes : Shrinks s.buffer := ⟨hsome, fun hor => hor.elim hlarge (by rw [hdata]; exact hle)⟩
  rw [if_neg hle, if_pos hyes, hdata, max_eq_right (Int.natCast_nonneg _)]
  exact if_neg hle

end

/-! ## §4. Histories. -/

/-- A call that meets `Keeps` does what it should. -/
theorem step_good (l : Call) (h : Kept s t) (hpass : Passes s l) (hkeep : Keeps s t l) :
    Matched Kept (step s l) (bytes t l) := by
  cases l with
  | expand malloc need =>
    obtain ⟨s', hexpand, hkept, hneed⟩ := expand_good h hpass hkeep
    unfold step bytes
    dsimp only
    rw [hexpand, checked_some, decide_eq_true hneed]
    exact .answer hkept
  | pour w =>
    obtain ⟨s', hpour, hkept⟩ := pour_good h hpass
    unfold step bytes
    dsimp only
    rw [hpour]
    exact .answer hkept
  | drain base length =>
    obtain ⟨s', hdrain, hkept⟩ := drain_good h hkeep
    unfold step bytes
    dsimp only
    rw [hdrain]
    exact .answer hkept
  | strip length =>
    obtain ⟨s', hstrip, hkept⟩ := strip_good h hkeep
    unfold step bytes
    dsimp only
    rw [hstrip]
    exact .answer hkept
  | shrink malloc =>
    unfold step bytes
    dsimp only
    have hle : (t.length : ℤ) ≤ SHRINK_BUFFER_SIZE := hkeep
    rw [shrink_eq h, if_pos hle]
    exact .answer h
  | clear => exact .answer (clear_good h)

/-- Any other call shows. -/
theorem step_bad (l : Call) (h : Kept s t) (hpass : Passes s l) (hkeep : ¬ Keeps s t l) :
    ¬ Matched Shows (step s l) (bytes t l) := by
  have hany : ∀ {x : Option BlockBuffer} {a : BlockBuffer → Bool} {t' : List UInt8},
      (∀ s', x = some s' → ¬ Shows s' t') →
      ¬ Matched Shows (checked x fun s' => .ok (a s', s')) (.ok (true, t') : Except Stop (Bool × List UInt8)) := by
    intro x a t' hbad hmatched
    cases x with
    | none => exact not_matched_error_ok hmatched
    | some s' => exact hbad s' rfl (matched_ok_iff.mp hmatched).2
  cases l with
  | expand malloc need => exact hany (expand_bad h hpass hkeep)
  | pour w => exact absurd trivial hkeep
  | drain base length => exact hany (drain_bad h hpass hkeep)
  | strip length =>
    have hlt : ¬ length ≤ t.length := hkeep
    exact hany (fun s' => strip_bad h hpass (by omega) s' _)
  | shrink malloc =>
    have hlarge : ¬ (t.length : ℤ) ≤ SHRINK_BUFFER_SIZE := hkeep
    refine hany fun s' hshrink => ?_
    rw [shrink_eq h, if_neg hlarge] at hshrink
    cases hshrink
  | clear => exact absurd trivial hkeep

end Calls

/-- **THE BYTES POURED AND NOT YET TAKEN ARE THERE**, in order inside the block, and
    `expand` makes the room it was asked for, after every call of a history exactly
    when each call meets `Keeps`. -/
theorem poured_shows_iff (ls : List Call) (hpass : Calls step bytes (fun s _ l => Passes s l) new [] ls) :
    (∀ n, Matched Shows (history step new (ls.take n)) (history bytes [] (ls.take n))) ↔
      Calls step bytes Keeps new [] ls := by
  refine matched_iff_calls Kept ?_ ?_ kept_new.shows kept_new hpass
  · intro s t l _ hkept hpass hkeep
    exact (step_good l hkept hpass hkeep).mono fun _ _ h => ⟨h.shows, h⟩
  · intro s t l _ hkept hpass hkeep
    exact step_bad l hkept hpass hkeep

/-- Three bytes are poured, one is drained and one stripped. -/
theorem poured_shows_three : Matched Shows
    (history step new ([.expand (some fun _ => 0) 4, .pour [1, 2, 3], .drain 4096 1, .strip 1].take 4))
    (history bytes [] ([.expand (some fun _ => 0) 4, .pour [1, 2, 3], .drain 4096 1, .strip 1].take 4)) :=
  (poured_shows_iff _ (by decide)).mpr (by decide +kernel) 4

/-- `strip(1)` of a new block without bytes puts `pfree_` in front of it, though the
    assertion of `strip` holds. -/
theorem strip_empty : Passes ⟨⟨some fun _ => 0, 256, 0, 0⟩, 256⟩ (.strip 1) ∧
    step new (.expand (some fun _ => 0) 1) = .ok (true, ⟨⟨some fun _ => 0, 256, 0, 0⟩, 256⟩) ∧
    ¬ ∀ n, Matched Shows (history step new ([.expand (some fun _ => 0) 1, .strip 1].take n))
      (history bytes [] ([.expand (some fun _ => 0) 1, .strip 1].take n)) := by
  refine ⟨by decide, rfl, fun hall => ?_⟩
  have htwo := hall 2
  cases htwo

end BlockBuffer

end KalavaPir.Common
