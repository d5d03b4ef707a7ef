/-
  KalavaPir.Common.QByteArray — the byte array of `common/qbytearray.h`.

  Every access is checked against the size of the array, `position_+size>size_`,
  and throws `out_of_range` when it does not fit.  The sum is one of `uint32_t`
  values, except for a fixed type, whose `sizeof` makes it 64 bits wide; and a
  string is written or read in two accesses, of which the second may throw.
-/
import KalavaPir.Framework.Memory
import KalavaPir.Framework.ByteFile

namespace KalavaPir.Common

open KalavaPir.Framework

/-! ## §1. The array. -/

/-- `class QByteArray`: what `data_` points to, and two `uint32_t`. -/
structure QByteArray where
  data_ : Memory
  size_ : ℕ
  position_ : ℕ
  size_lt : size_ < 2 ^ 32

namespace QByteArray

/-- What a call leaves: the array, the bytes of `data_` that it has touched or
    pointed to (how far from it, and how many), whether it has read behind the
    end of a copy, and what it delivers. -/
structure Ret where
  thrown : Bool
  array : QByteArray
  touched : List (ℤ × ℕ)
  overread : Bool
  value : List UInt8

/-- `throw out_of_range(..)`. -/
def refused (a : QByteArray) : Ret := ⟨true, a, [], false, []⟩

/-- What a second access leaves, with what the first has touched. -/
def Ret.behind (r r' : Ret) : Ret :=
  ⟨r'.thrown, r'.array, r.touched ++ r'.touched, r.overread || r'.overread, r'.value⟩

/-- Two accesses in a row, the second with what the first has delivered. -/
def Ret.andThen (r : Ret) (f : QByteArray → List UInt8 → Ret) : Ret :=
  if r.thrown then r else r.behind (f r.array r.value)

/-- `put(const T& e)`, `e` as its bytes. -/
def put_T (a : QByteArray) (e : List UInt8) : Ret :=
  if a.position_ + e.length > a.size_ then a.refused
  else ⟨false, { a with data_ := a.data_.write a.position_ e, position_ := (a.position_ + e.length) % 2 ^ 32 },
    [(a.position_, e.length)], false, []⟩

/-- `get(T& e)`, where `n` is `sizeof(T)`. -/
def get_T (a : QByteArray) (n : ℕ) : Ret :=
  if a.position_ + n > a.size_ then a.refused
  else ⟨false, { a with position_ := (a.position_ + n) % 2 ^ 32 }, [(a.position_, n)], false,
    a.data_.read a.position_ n⟩

/-- `put(const char* src, uint32_t offset, uint32_t size)`; `src` points to the
    offset already. -/
def put (a : QByteArray) (src : Memory) (size : UInt32) : Ret :=
  if (a.position_ + size.toNat) % 2 ^ 32 > a.size_ then a.refused
  else ⟨false, { a with
      data_ := a.data_.write a.position_ (src.read 0 size.toNat)
      position_ := (a.position_ + size.toNat) % 2 ^ 32 },
    [(a.position_, size.toNat)], false, []⟩

/-- `get(char* dst, uint32_t offset, uint32_t size)`. -/
def get (a : QByteArray) (size : UInt32) : Ret :=
  if (a.position_ + size.toNat) % 2 ^ 32 > a.size_ then a.refused
  else ⟨false, { a with position_ := (a.position_ + size.toNat) % 2 ^ 32 },
    [(a.position_, size.toNat)], false, a.data_.read a.position_ size.toNat⟩

/-- `put(const std::string& v)`: the length with the NUL, cut to 32 bits, and the
    bytes with the NUL. -/
def put_string (a : QByteArray) (v : List UInt8) : Ret :=
  (a.put_T (encode 4 ((v.length + 1) % 2 ^ 32))).andThen fun a _ =>
    a.put (fun i => (v ++ [0]).getD i 0) (UInt32.ofNat (v.length + 1))

/-- `v.assign(data)`: up to the first NUL, behind the end of the copy if it has
    none. -/
def assign (r : Ret) : Ret :=
  if r.thrown then r
  else { r with overread := !r.value.contains 0, value := r.value.takeWhile (· != 0) }

/-- `if(size>0)`: the bytes of a string, through a copy that there is memory
    for. -/
def get_bytes (a : QByteArray) (size : ℕ) : Ret :=
  if size > 0 then assign (a.get (UInt32.ofNat size)) else ⟨false, a, [], false, []⟩

/-- `get(std::string& v)`. -/
def get_string (a : QByteArray) : Ret := (a.get_T 4).andThen fun a size => a.get_bytes (decode size)

/-- `if(index<0) index=position_;`, an `int32_t`. -/
def rawIndex (a : QByteArray) (index : Int32) : ℤ :=
  if index.toInt < 0 then Int.bmod a.position_ (2 ^ 32) else index.toInt

/-- `rawData(int32_t index, const char* &dst, uint32_t size)`. -/
def rawData (a : QByteArray) (index : Int32) (size : UInt32) : Ret :=
  if (a.rawIndex index + size.toNat) % 2 ^ 32 > a.size_ then a.refused
  else ⟨false, a, [(a.rawIndex index, size.toNat)], false, []⟩

/-- `getRef(int32_t index, const char* &dst, uint32_t size)`. -/
def getRef (a : QByteArray) (index : Int32) (size : UInt32) : Ret :=
  (a.rawData index size).andThen fun a _ =>
    ⟨false, { a with position_ :=
      if index.toInt < 0 then (a.position_ + size.toNat) % 2 ^ 32
      else ((index.toInt + size.toNat) % 2 ^ 32).toNat }, [], false, []⟩

/-- A call, with any arguments. -/
inductive Call where
  | put_T (e : List UInt8)
  | get_T (n : ℕ)
  | put_string (v : List UInt8)
  | get_string
  | put (src : Memory) (size : UInt32)
  | get (size : UInt32)
  | getRef (index : Int32) (size : UInt32)
  | rawData (index : Int32) (size : UInt32)

/-- One call. -/
def call (a : QByteArray) : Call → Ret
  | .put_T e => a.put_T e
  | .get_T n => a.get_T n
  | .put_string v => a.put_string v
  | .get_string => a.get_string
  | .put src size => a.put src size
  | .get size => a.get size
  | .getRef index size => a.getRef index size
  | .rawData index size => a.rawData index size

/-! ## §2. Staying inside. -/

/-- Only bytes of the array. -/
def Inside (a : QByteArray) (touched : List (ℤ × ℕ)) : Prop :=
  ∀ w ∈ touched, w.2 = 0 ∨ (0 ≤ w.1 ∧ w.1 + w.2 ≤ a.size_)

/-- The call throws and changes nothing, or it touches only the array and leaves
    the position in it. -/
def Stays (a : QByteArray) (r : Ret) : Prop :=
  (r.thrown = true ∧ r.array = a) ∨
    (r.thrown = false ∧ a.Inside r.touched ∧ r.overread = false ∧ r.array.size_ = a.size_ ∧
      r.array.position_ ≤ r.array.size_)

/-- The sum does not wrap around into the array. -/
def NoWrap (a : QByteArray) (p size : ℕ) : Prop := ¬ (2 ^ 32 ≤ p + size ∧ p + size - 2 ^ 32 ≤ a.size_)

/-- What `getRef` and `rawData` take for the position: a `uint32_t`. -/
def base (a : QByteArray) (index : Int32) : ℕ := if index.toInt < 0 then a.position_ else index.toInt.toNat

/-- A piece at an index: its sum does not wrap, and a position that is to be used
    is one of `int32_t`. -/
def FitsAt (a : QByteArray) (index : Int32) (size : UInt32) : Prop :=
  size.toNat = 0 ∨ (a.NoWrap (a.base index) size.toNat ∧
    (index.toInt < 0 → a.position_ < 2 ^ 31 ∨ a.size_ < a.position_ + size.toNat))

/-- What has to hold of a call. -/
def Fits (a : QByteArray) : Call → Prop
  | .put_T _ => True
  | .get_T _ => True
  | .put _ size => a.NoWrap a.position_ size.toNat
  | .get size => a.NoWrap a.position_ size.toNat
  -- a string whose length has no room, or the whole of it
  | .put_string v => a.size_ < a.position_ + 4 ∨ a.position_ + 4 + (v.length + 1) % 2 ^ 32 ≤ a.size_
  | .get_string =>
    let size := decode (a.data_.read a.position_ 4)
    a.size_ < a.position_ + 4 ∨ size = 0 ∨
      (a.position_ + 4 + size ≤ a.size_ ∧ 0 ∈ a.data_.read (a.position_ + 4) size)
  | .getRef index size => a.FitsAt index size
  | .rawData index size => a.FitsAt index size

/-! ## §3. One access. -/

section Access

variable {a : QByteArray}

variable {size : ℕ} {r : Ret}

variable {p : ℕ}

/-- **THE CHECK** is right unless the sum wraps around into the array. -/
theorem sum_check (hp : p < 2 ^ 32) (hsize : size < 2 ^ 32) :
    (a.NoWrap p size ∧ (a.size_ < (p + size) % 2 ^ 32 ∧ a.size_ < p + size ∨
      (p + size) % 2 ^ 32 = p + size ∧ p + size ≤ a.size_)) ∨
    (¬ a.NoWrap p size ∧ (p + size) % 2 ^ 32 ≤ a.size_ ∧ a.size_ < p + size ∧ 0 < size) := by
  have hlt := a.size_lt
  unfold NoWrap
  omega

/-- An exception changes nothing. -/
theorem stays_refused (a : QByteArray) : a.Stays a.refused := Or.inl ⟨rfl, rfl⟩

theorem stays_of_done (h : r.thrown = false) : a.Stays r ↔
    a.Inside r.touched ∧ r.overread = false ∧ r.array.size_ = a.size_ ∧
      r.array.position_ ≤ r.array.size_ := by
  unfold Stays
  rw [h]
  simp

theorem stays_of_thrown (h : r.thrown = true) : a.Stays r ↔ r.array = a := by
  unfold Stays
  rw [h]
  simp

theorem inside_singleton {p : ℤ} {n : ℕ} : a.Inside [(p, n)] ↔ n = 0 ∨ (0 ≤ p ∧ p + n ≤ a.size_) := by
  unfold Inside
  rw [List.forall_mem_singleton]

/-- **A CHECKED ACCESS** stays inside unless its sum wraps around into the
    array. -/
theorem checked_stays_iff (hp : p < 2 ^ 32) (hsize : size < 2 ^ 32) (hdone : r.thrown = false)
    (htouched : r.touched = [((p : ℤ), size)]) (hover : r.overread = false)
    (hkept : r.array.size_ = a.size_) (hpos : r.array.position_ = (p + size) % 2 ^ 32) :
    a.Stays (if (p + size) % 2 ^ 32 > a.size_ then a.refused else r) ↔ a.NoWrap p size := by
  rcases sum_check (a := a) hp hsize with ⟨hno, ⟨hout, -⟩ | ⟨hsum, hin⟩⟩ | ⟨hwrap, hpass, hout, hpos'⟩
  · rw [if_pos hout]
    exact iff_of_true (stays_refused a) hno
  · rw [if_neg (by omega), stays_of_done hdone, htouched, inside_singleton]
    refine iff_of_true ⟨Or.inr ⟨by omega, by omega⟩, hover, hkept, ?_⟩ hno
    omega
  · rw [if_neg (by omega), stays_of_done hdone, htouched, inside_singleton]
    -- what is copied reaches behind the end
    refine iff_of_false (fun hstays => ?_) hwrap
    rcases hstays.1 with hzero | ⟨-, hend⟩
    · omega
    · omega

theorem checked_done_iff (hp : p < 2 ^ 32) (hsize : size < 2 ^ 32) (hdone : r.thrown = false)
    (htouched : r.touched = [((p : ℤ), size)]) (hover : r.overread = false)
    (hkept : r.array.size_ = a.size_) (hpos : r.array.position_ = (p + size) % 2 ^ 32) :
    ((if (p + size) % 2 ^ 32 > a.size_ then a.refused else r).thrown = false ∧
      a.Stays (if (p + size) % 2 ^ 32 > a.size_ then a.refused else r)) ↔ p + size ≤ a.size_ := by
  rw [checked_stays_iff hp hsize hdone htouched hover hkept hpos]
  rcases sum_check (a := a) hp hsize with ⟨hno, ⟨hout, hend⟩ | ⟨hsum, hin⟩⟩ | ⟨hwrap, hpass, hout, -⟩
  · rw [if_pos hout]
    exact iff_of_false (fun h => absurd h.1 (by simp [refused])) (by omega)
  · rw [if_neg (by omega)]
    exact iff_of_true ⟨hdone, hno⟩ hin
  · exact iff_of_false (fun h => hwrap h.2) (by omega)

variable (h : a.position_ ≤ a.size_)
include h

/-- A `put` of a number checks its room. -/
theorem put_T_stays (e : List UInt8) : a.Stays (a.put_T e) := by
  unfold put_T
  split
  · exact stays_refused a
  rw [stays_of_done rfl, inside_singleton]
  refine ⟨Or.inr ⟨by omega, by omega⟩, rfl, rfl, ?_⟩
  show (a.position_ + e.length) % 2 ^ 32 ≤ a.size_
  omega

/-- A `get` of one, too. -/
theorem get_T_stays (n : ℕ) : a.Stays (a.get_T n) := by
  unfold get_T
  split
  · exact stays_refused a
  rw [stays_of_done rfl, inside_singleton]
  refine ⟨Or.inr ⟨by omega, by omega⟩, rfl, rfl, ?_⟩
  show (a.position_ + n) % 2 ^ 32 ≤ a.size_
  omega

/-- A `put` stays iff its sum does not wrap … -/
theorem put_stays_iff (src : Memory) (size : UInt32) :
    a.Stays (a.put src size) ↔ a.NoWrap a.position_ size.toNat :=
  checked_stays_iff (Nat.lt_of_le_of_lt h a.size_lt) size.toNat_lt rfl rfl rfl rfl rfl

/-- … and so does a `get`. -/
theorem get_stays_iff (size : UInt32) : a.Stays (a.get size) ↔ a.NoWrap a.position_ size.toNat :=
  checked_stays_iff (Nat.lt_of_le_of_lt h a.size_lt) size.toNat_lt rfl rfl rfl rfl rfl

/-- A `put` is done iff it fits … -/
theorem put_done_iff (src : Memory) (size : UInt32) :
    (a.put src size).thrown = false ∧ a.Stays (a.put src size) ↔ a.position_ + size.toNat ≤ a.size_ :=
  checked_done_iff (Nat.lt_of_le_of_lt h a.size_lt) size.toNat_lt rfl rfl rfl rfl rfl

/-- … and so is a `get`. -/
theorem get_done_iff (size : UInt32) :
    (a.get size).thrown = false ∧ a.Stays (a.get size) ↔ a.position_ + size.toNat ≤ a.size_ :=
  checked_done_iff (Nat.lt_of_le_of_lt h a.size_lt) size.toNat_lt rfl rfl rfl rfl rfl

end Access

/-! ## §4. Two accesses. -/

section Strings

variable {a : QByteArray}

variable {n : ℕ} {size : UInt32}

theorem get_T_done (hroom : ¬ a.position_ + n > a.size_) :
    a.get_T n = ⟨false, { a with position_ := a.position_ + n }, [(a.position_, n)], false,
      a.data_.read a.position_ n⟩ := by
  have hlt := a.size_lt
  unfold get_T
  rw [if_neg hroom, Nat.mod_eq_of_lt (by omega)]

theorem put_T_done {e : List UInt8} (hroom : ¬ a.position_ + e.length > a.size_) :
    a.put_T e = ⟨false, { a with data_ := a.data_.write a.position_ e, position_ := a.position_ + e.length },
      [(a.position_, e.length)], false, []⟩ := by
  have hlt := a.size_lt
  unfold put_T
  rw [if_neg hroom, Nat.mod_eq_of_lt (by omega)]

/-- **TWO ACCESSES IN A ROW**: a second one that throws leaves the first one's
    work behind. -/
theorem andThen_stays_iff {r : Ret} {f : QByteArray → List UInt8 → Ret} (hdone : r.thrown = false)
    (hin : a.Inside r.touched) (hover : r.overread = false) (hsize : r.array.size_ = a.size_)
    (hmoved : r.array.position_ ≠ a.position_)
    (hrefused : (f r.array r.value).thrown = true → (f r.array r.value).array = r.array) :
    a.Stays (r.andThen f) ↔ (f r.array r.value).thrown = false ∧ r.array.Stays (f r.array r.value) := by
  unfold Ret.andThen
  rw [hdone, if_neg Bool.false_ne_true]
  obtain ⟨r', hr'⟩ : ∃ r', r' = f r.array r.value := ⟨_, rfl⟩
  rw [← hr'] at hrefused ⊢
  cases hsecond : r'.thrown with
  | true =>
    refine iff_of_false (fun hstays => hmoved ?_) (fun h => absurd h.1 (by simp))
    have heq : r'.array = a := (stays_of_thrown (r := r.behind r') hsecond).mp hstays
    rw [← hrefused hsecond, heq]
  | false =>
    have htouched : a.Inside (r.touched ++ r'.touched) ↔ r.array.Inside r'.touched := by
      unfold Inside
      rw [List.forall_mem_append, hsize]
      exact and_iff_right hin
    refine (stays_of_done (r := r.behind r') hsecond).trans ?_
    unfold Ret.behind
    rw [htouched, hover, Bool.false_or, stays_of_done hsecond, hsize]
    simp

/-- **WRITING A STRING** stays inside when there is room for all of it, or not
    even for its length. -/
theorem put_string_stays_iff (v : List UInt8) : a.Stays (a.put_string v) ↔
    a.size_ < a.position_ + 4 ∨ a.position_ + 4 + (v.length + 1) % 2 ^ 32 ≤ a.size_ := by
  have hlength : (encode 4 ((v.length + 1) % 2 ^ 32)).length = 4 := length_encode 4 _
  have hsize : (UInt32.ofNat (v.length + 1)).toNat = (v.length + 1) % 2 ^ 32 := UInt32.toNat_ofNat'
  unfold put_string
  by_cases hroom : a.position_ + 4 > a.size_
  · have hthrow : a.put_T (encode 4 ((v.length + 1) % 2 ^ 32)) = a.refused := by
      unfold put_T
      rw [hlength, if_pos hroom]
    rw [hthrow]
    exact iff_of_true (stays_refused a) (Or.inl hroom)
  rw [put_T_done (by rw [hlength]; exact hroom), hlength]
  refine (andThen_stays_iff (a := a) rfl (inside_singleton.mpr (Or.inr ⟨by omega, by omega⟩)) rfl rfl
    (by show a.position_ + 4 ≠ a.position_; omega) ?_).trans ?_
  · unfold put
    split
    · exact fun _ => rfl
    · exact fun hbad => absurd hbad (by simp)
  · refine (put_done_iff (by show a.position_ + 4 ≤ a.size_; omega) _ _).trans ?_
    show a.position_ + 4 + (UInt32.ofNat (v.length + 1)).toNat ≤ a.size_ ↔ _
    omega

/-- A copy is read to its end, unless a NUL comes before. -/
theorem assign_done_iff {r : Ret} (hover : r.overread = false) :
    (assign r).thrown = false ∧ a.Stays (assign r) ↔
      (r.thrown = false ∧ a.Stays r) ∧ (r.thrown = false → 0 ∈ r.value) := by
  unfold assign
  cases hthrown : r.thrown with
  | true =>
    rw [if_pos rfl, hthrown]
    simp
  | false =>
    rw [if_neg Bool.false_ne_true, stays_of_done hthrown,
      stays_of_done (r := ⟨false, r.array, r.touched, _, _⟩) rfl, hover]
    simp only [Bool.not_eq_false', List.contains_iff_mem, true_and, forall_const]
    constructor
    · intro h
      obtain ⟨hin, hnul, hrest⟩ := h
      exact ⟨⟨hin, hrest⟩, hnul⟩
    · intro h
      obtain ⟨⟨hin, hrest⟩, hnul⟩ := h
      exact ⟨hin, hnul, hrest⟩

/-- What a `get` reads. -/
theorem get_value (h : (a.get size).thrown = false) :
    (a.get size).value = a.data_.read a.position_ size.toNat := by
  unfold get at h ⊢
  split at h
  · exact absurd h (by simp [refused])
  · rw [if_neg (by assumption)]

theorem get_refused (h : (a.get size).thrown = true) : (a.get size).array = a := by
  unfold get at h ⊢
  split at h
  · rw [if_pos (by assumption)]
    rfl
  · exact absurd h (by simp)

theorem get_overread (a : QByteArray) (size : UInt32) : (a.get size).overread = false := by
  unfold get
  split <;> rfl

theorem get_bytes_refused (h : (a.get_bytes n).thrown = true) : (a.get_bytes n).array = a := by
  unfold get_bytes at h ⊢
  split at h
  next hpos =>
    rw [if_pos hpos]
    unfold assign at h ⊢
    split at h
    next hthrown =>
      rw [if_pos hthrown]
      exact get_refused hthrown
    next hdone => exact absurd h hdone
  next => exact absurd h (by simp)

/-- The bytes behind the length: all of them there, and a NUL among them. -/
theorem get_bytes_done_iff (h : a.position_ ≤ a.size_) (hn : n < 2 ^ 32) :
    (a.get_bytes n).thrown = false ∧ a.Stays (a.get_bytes n) ↔
      n = 0 ∨ (a.position_ + n ≤ a.size_ ∧ 0 ∈ a.data_.read a.position_ n) := by
  have hsize : (UInt32.ofNat n).toNat = n := by
    rw [UInt32.toNat_ofNat', Nat.mod_eq_of_lt hn]
  unfold get_bytes
  split
  next hpos =>
    rw [assign_done_iff (get_overread a _), get_done_iff h, hsize]
    have hdone := get_done_iff h (UInt32.ofNat n)
    rw [hsize] at hdone
    constructor
    · intro hstays
      obtain ⟨hend, hnul⟩ := hstays
      have hthrown := (hdone.mpr hend).1
      have hmem := hnul hthrown
      rw [get_value hthrown, hsize] at hmem
      exact Or.inr ⟨hend, hmem⟩
    · intro hor
      obtain hzero | ⟨hend, hmem⟩ := hor
      · omega
      · refine ⟨hend, fun hthrown => ?_⟩
        rw [get_value hthrown, hsize]
        exact hmem
  next hzero =>
    refine iff_of_true ⟨rfl, ?_⟩ (Or.inl (by omega))
    rw [stays_of_done rfl]
    exact ⟨fun w hw => absurd hw List.not_mem_nil, rfl, rfl, h⟩

/-- **READING A STRING** stays inside when all of it is there and ends, or not
    even its length. -/
theorem get_string_stays_iff (a : QByteArray) : a.Stays a.get_string ↔ a.Fits .get_string := by
  obtain ⟨n, hn⟩ : ∃ n, n = decode (a.data_.read a.position_ 4) := ⟨_, rfl⟩
  have hn32 : n < 2 ^ 32 := by
    have hdec := decode_lt (a.data_.read a.position_ 4)
    rw [Memory.length_read, ← hn] at hdec
    exact hdec
  show _ ↔ a.size_ < a.position_ + 4 ∨ decode (a.data_.read a.position_ 4) = 0 ∨
    (a.position_ + 4 + decode (a.data_.read a.position_ 4) ≤ a.size_ ∧
      0 ∈ a.data_.read (a.position_ + 4) (decode (a.data_.read a.position_ 4)))
  unfold get_string
  by_cases hroom : a.position_ + 4 > a.size_
  · have hthrow : a.get_T 4 = a.refused := by
      unfold get_T
      rw [if_pos hroom]
    rw [hthrow]
    exact iff_of_true (stays_refused a) (Or.inl hroom)
  rw [get_T_done hroom]
  refine (andThen_stays_iff (a := a) rfl (inside_singleton.mpr (Or.inr ⟨by omega, by omega⟩)) rfl rfl
    (by show a.position_ + 4 ≠ a.position_; omega) ?_).trans ?_
  · exact get_bytes_refused
  · refine (get_bytes_done_iff (by show a.position_ + 4 ≤ a.size_; omega) (by rw [← hn]; exact hn32)).trans ?_
    rw [← hn]
    exact (or_iff_right hroom).symm

end Strings

/-! ## §5. Pieces of the array. -/

section Pieces

variable {a : QByteArray} (index : Int32) (size : UInt32)

theorem rawIndex_sum (a : QByteArray) :
    (a.rawIndex index + size.toNat) % 2 ^ 32 = ((a.base index + size.toNat) % 2 ^ 32 : ℕ) := by
  unfold rawIndex base
  split
  · rw [Int.bmod_def]
    split <;> omega
  · omega

/-- Where `getRef` moves the position to. -/
theorem moved_eq (a : QByteArray) : (if index.toInt < 0 then (a.position_ + size.toNat) % 2 ^ 32
    else ((index.toInt + size.toNat) % 2 ^ 32).toNat) = (a.base index + size.toNat) % 2 ^ 32 := by
  unfold base
  split <;> omega

theorem rawIndex_cases (a : QByteArray) (hpos : a.position_ < 2 ^ 32) :
    (a.rawIndex index = a.base index ∧ (index.toInt < 0 → a.position_ < 2 ^ 31)) ∨
    (a.rawIndex index < 0 ∧ index.toInt < 0 ∧ 2 ^ 31 ≤ a.position_) := by
  unfold rawIndex base
  by_cases hneg : index.toInt < 0
  · rw [if_pos hneg, if_pos hneg, Int.bmod_def]
    split <;> omega
  · rw [if_neg hneg, if_neg hneg]
    exact Or.inl ⟨by omega, fun h => absurd h hneg⟩

/-- The base of an access is a `uint32_t`. -/
theorem base_lt (a : QByteArray) (hpos : a.position_ < 2 ^ 32) : a.base index < 2 ^ 32 := by
  have hindex := index.toInt_lt
  unfold base
  split <;> omega

variable (h : a.position_ ≤ a.size_)
include h

/-- **A PIECE OF THE ARRAY** lies in it unless its sum wraps, or the position it
    is to be taken from does. -/
theorem rawData_stays_iff : a.Stays (a.rawData index size) ↔ a.FitsAt index size := by
  have hpos := Nat.lt_of_le_of_lt h a.size_lt
  have hsum := rawIndex_sum index size a
  have hbase : index.toInt < 0 → a.base index = a.position_ := fun hneg => if_pos hneg
  unfold rawData FitsAt
  rcases sum_check (a := a) (base_lt index a hpos) size.toNat_lt with
    ⟨hno, ⟨hout, hend⟩ | ⟨hpass, hin⟩⟩ | ⟨hwrap, hpass, hout, hsize⟩
  · rw [if_pos (by omega)]
    refine iff_of_true (stays_refused a) (Or.inr ⟨hno, fun hneg => Or.inr ?_⟩)
    rw [← hbase hneg]
    exact hend
  · rw [if_neg (by omega), stays_of_done rfl, inside_singleton]
    constructor
    · intro hstays
      rcases hstays.1 with hzero | ⟨hfront, -⟩
      · exact Or.inl hzero
      refine Or.inr ⟨hno, fun hneg => Or.inl ?_⟩
      rcases rawIndex_cases index a hpos with ⟨-, hsmall⟩ | ⟨hbad, -⟩
      · exact hsmall hneg
      · omega
    · intro hfits
      refine ⟨?_, rfl, rfl, h⟩
      rcases hfits with hzero | ⟨-, hsmall⟩
      · exact Or.inl hzero
      rcases rawIndex_cases index a hpos with ⟨heq, -⟩ | ⟨-, hneg, hbig⟩
      · exact Or.inr ⟨by omega, by omega⟩
      · have heq := hbase hneg
        omega
  · rw [if_neg (by omega), stays_of_done rfl, inside_singleton]
    refine iff_of_false (fun hstays => ?_) (fun hfits => ?_)
    · rcases rawIndex_cases index a hpos with ⟨heq, -⟩ | ⟨hneg, -⟩
      · rcases hstays.1 with hzero | hin
        · omega
        · omega
      · rcases hstays.1 with hzero | hin
        · omega
        · omega
    · rcases hfits with hzero | ⟨hno, -⟩
      · omega
      · exact hwrap hno

/-- `getRef` moves the position to where the check was made. -/
theorem getRef_stays_iff : a.Stays (a.getRef index size) ↔ a.FitsAt index size := by
  have hsum := rawIndex_sum index size a
  rw [← rawData_stays_iff index size h]
  unfold getRef rawData
  split
  · exact Iff.rfl
  next hpass =>
    have hmoved := moved_eq index size a
    unfold Ret.andThen Ret.behind
    dsimp only
    rw [if_neg Bool.false_ne_true, hmoved, stays_of_done rfl, stays_of_done rfl]
    -- the position is where the check has been made
    have hafter : (a.base index + size.toNat) % 2 ^ 32 ≤ a.size_ := by omega
    show a.Inside ([(a.rawIndex index, size.toNat)] ++ []) ∧ _ ∧ _ ∧ _ ↔ _
    exact and_congr_right fun _ => and_congr_right fun _ => and_congr_right fun _ => iff_of_true hafter h

end Pieces

/-! ## §6. Any call. -/

/-- **ONE CALL.** -/
theorem call_stays_iff {a : QByteArray} (h : a.position_ ≤ a.size_) (c : Call) :
    a.Stays (a.call c) ↔ a.Fits c := by
  cases c with
  | put_T e => exact iff_of_true (put_T_stays h e) trivial
  | get_T n => exact iff_of_true (get_T_stays h n) trivial
  | put_string v => exact put_string_stays_iff v
  | get_string => exact get_string_stays_iff a
  | put src size => exact put_stays_iff h src size
  | get size => exact get_stays_iff h size
  | getRef index size => exact getRef_stays_iff index size h
  | rawData index size => exact rawData_stays_iff index size h

/-- **A CALL STAYS INSIDE THE ARRAY**, or throws and changes nothing, exactly when
    its sum does not wrap around into the array and a string comes as a
    whole. -/
theorem stays_iff (a : QByteArray) (h : a.position_ ≤ a.size_) (c : Call) :
    a.Stays (a.call c) ↔ a.Fits c := call_stays_iff h c

/-- An array of four NULs at a position. -/
def fourNuls (p : ℕ) : QByteArray := ⟨fun _ => 0, 4, p, by decide⟩

/-- Three bytes are read out of an array of four. -/
theorem stays_three : (fourNuls 1).Stays ((fourNuls 1).call (.get 3)) :=
  (stays_iff (fourNuls 1) (by decide) (.get 3)).mpr
    (show ¬ (2 ^ 32 ≤ 1 + 3 ∧ 1 + 3 - 2 ^ 32 ≤ 4) by decide)

/-- At the end of an array of four bytes there are `0xFFFFFFFF` more to be read:
    the sum is 3. -/
theorem get_wraps :
    ¬ ∀ a : QByteArray, a.position_ ≤ a.size_ → ∀ c : Call, a.Stays (a.call c) := by
  intro hstays
  have hnowrap : (fourNuls 4).NoWrap 4 (0xFFFFFFFF : UInt32).toNat :=
    (get_stays_iff (le_refl 4) 0xFFFFFFFF).mp (hstays (fourNuls 4) (le_refl 4) (.get 0xFFFFFFFF))
  exact hnowrap ⟨by decide, by decide⟩

/-! ## §7. Sequences of calls. -/

/-- The arrays that a sequence of calls goes through, each caught when it
    throws. -/
def run (a : QByteArray) : List Call → QByteArray
  | [] => a
  | c :: cs => run (a.call c).array cs

/-- All calls find an array that they fit. -/
def AllFit (a : QByteArray) : List Call → Prop
  | [] => True
  | c :: cs => a.Fits c ∧ AllFit (a.call c).array cs

/-- All calls stay inside the array that they find. -/
def AllStay (a : QByteArray) : List Call → Prop
  | [] => True
  | c :: cs => a.Stays (a.call c) ∧ AllStay (a.call c).array cs

/-- The size of `a`, and a position in it. -/
def Sound (a b : QByteArray) : Prop := b.size_ = a.size_ ∧ b.position_ ≤ a.size_

section Sound

variable {a : QByteArray}

theorem andThen_sound {r : Ret} {f : QByteArray → List UInt8 → Ret} (hr : a.Sound r.array)
    (hf : ∀ b v, a.Sound b → a.Sound (f b v).array) : a.Sound (r.andThen f).array := by
  unfold Ret.andThen
  split
  · exact hr
  · exact hf r.array r.value hr

variable {b : QByteArray}

theorem put_T_sound (e : List UInt8) (h : a.Sound b) : a.Sound (b.put_T e).array := by
  obtain ⟨hsize, hpos⟩ := h
  unfold put_T
  split
  · exact ⟨hsize, hpos⟩
  · refine ⟨hsize, ?_⟩
    show (b.position_ + e.length) % 2 ^ 32 ≤ a.size_
    omega

theorem get_T_sound (n : ℕ) (h : a.Sound b) : a.Sound (b.get_T n).array := by
  obtain ⟨hsize, hpos⟩ := h
  unfold get_T
  split
  · exact ⟨hsize, hpos⟩
  · refine ⟨hsize, ?_⟩
    show (b.position_ + n) % 2 ^ 32 ≤ a.size_
    omega

/-- What passes the check is the new position, wrapped around or not. -/
theorem put_sound (src : Memory) (size : UInt32) (h : a.Sound b) :
    a.Sound (b.put src size).array := by
  obtain ⟨hsize, hpos⟩ := h
  unfold put
  split
  · exact ⟨hsize, hpos⟩
  next hpass =>
    refine ⟨hsize, ?_⟩
    show (b.position_ + size.toNat) % 2 ^ 32 ≤ a.size_
    omega

theorem get_sound (size : UInt32) (h : a.Sound b) : a.Sound (b.get size).array := by
  obtain ⟨hsize, hpos⟩ := h
  unfold get
  split
  · exact ⟨hsize, hpos⟩
  next hpass =>
    refine ⟨hsize, ?_⟩
    show (b.position_ + size.toNat) % 2 ^ 32 ≤ a.size_
    omega

theorem get_bytes_sound (n : ℕ) (h : a.Sound b) : a.Sound (b.get_bytes n).array := by
  have hget := get_sound (UInt32.ofNat n) h
  unfold get_bytes assign
  split
  · split <;> exact hget
  · exact h

theorem getRef_sound (index : Int32) (size : UInt32) (h : a.position_ ≤ a.size_) :
    a.Sound (a.getRef index size).array := by
  have hsum := rawIndex_sum index size a
  unfold getRef rawData
  split
  · exact ⟨rfl, h⟩
  next hpass =>
    have hmoved := moved_eq index size a
    refine ⟨rfl, ?_⟩
    show (if index.toInt < 0 then (a.position_ + size.toNat) % 2 ^ 32
      else ((index.toInt + size.toNat) % 2 ^ 32).toNat) ≤ a.size_
    omega

/-- **ANY CALL** leaves the size alone and the position in the array. -/
theorem call_sound (h : a.position_ ≤ a.size_) (c : Call) : a.Sound (a.call c).array := by
  have hself : a.Sound a := ⟨rfl, h⟩
  cases c with
  | put_T e => exact put_T_sound e hself
  | get_T n => exact get_T_sound n hself
  | put_string v => exact andThen_sound (put_T_sound _ hself) fun _ _ hb => put_sound _ _ hb
  | get_string => exact andThen_sound (get_T_sound 4 hself) fun _ v hb => get_bytes_sound (decode v) hb
  | put src size => exact put_sound src size hself
  | get size => exact get_sound size hself
  | getRef index size => exact getRef_sound index size h
  | rawData index size =>
    show a.Sound (a.rawData index size).array
    unfold rawData
    split <;> exact hself

end Sound

/-- **A SEQUENCE OF CALLS**, whatever they are, leaves the size alone and the
    position in the array; and it touches only the array, and reads no string
    beyond its end, exactly when each call fits the array that it finds. -/
theorem run_stays (cs : List Call) : ∀ {a : QByteArray}, a.position_ ≤ a.size_ →
    ((a.run cs).size_ = a.size_ ∧ (a.run cs).position_ ≤ (a.run cs).size_) ∧ (a.AllStay cs ↔ a.AllFit cs) := by
  induction cs with
  | nil => exact fun h => ⟨⟨rfl, h⟩, Iff.rfl⟩
  | cons c cs ih =>
    intro a h
    obtain ⟨hsize, hpos⟩ := call_sound h c
    obtain ⟨⟨hrun, hend⟩, hiff⟩ := ih (a := (a.call c).array) (by omega)
    exact ⟨⟨hrun.trans hsize, hend⟩, and_congr (call_stays_iff h c) hiff⟩

/-- Three bytes are read, and two more are not there. -/
theorem run_stays_two : (((fourNuls 1).run [.get 3, .get 2]).size_ = 4 ∧
    ((fourNuls 1).run [.get 3, .get 2]).position_ ≤ ((fourNuls 1).run [.get 3, .get 2]).size_) ∧
    (fourNuls 1).AllStay [.get 3, .get 2] := by
  obtain ⟨hrun, hiff⟩ := run_stays [.get 3, .get 2] (a := fourNuls 1) (by decide)
  refine ⟨hrun, hiff.mpr ⟨?_, ?_, trivial⟩⟩
  · show ¬ (2 ^ 32 ≤ 1 + 3 ∧ 1 + 3 - 2 ^ 32 ≤ 4)
    decide
  · show ¬ (2 ^ 32 ≤ 4 + 2 ∧ 4 + 2 - 2 ^ 32 ≤ 4)
    decide

end QByteArray

end KalavaPir.Common
