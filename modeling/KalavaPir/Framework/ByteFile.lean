/-
  KalavaPir.Framework.ByteFile — files of bytes under `fread` and `fwrite`.

  A file is its bytes and its length; what lies beyond the end reads as zero,
  and that is what a write past the end leaves in the gap.  The cursor of
  `stdio` is an explicit position here: a function that reads and seeks its
  way through a file carries it along.

  Numbers are stored with their least significant byte first, signed ones in
  two's complement.
-/
import Mathlib.Data.List.Basic
import Mathlib.Algebra.Ring.Int.Defs
import Mathlib.Algebra.Ring.Nat

namespace KalavaPir.Framework

open List

/-! ## §1. Numbers in bytes. -/

/-- The `n` low bytes of a number. -/
def encode : ℕ → ℕ → List UInt8
  | 0, _ => []
  | n + 1, x => UInt8.ofNat x :: encode n (x / 256)

/-- The number of some bytes, the lowest first. -/
def decode : List UInt8 → ℕ
  | [] => 0
  | b :: bs => b.toNat + 256 * decode bs

/-- The same for signed numbers. -/
def encodeInt (n : ℕ) (z : ℤ) : List UInt8 := encode n (z % (256 ^ n : ℕ)).toNat
/-- With its sign, in two's complement. -/
def decodeInt (bs : List UInt8) : ℤ := Int.bmod (decode bs) (256 ^ bs.length)

@[simp] theorem length_encode (n : ℕ) : ∀ x, (encode n x).length = n := by
  induction n with
  | zero => exact fun _ => rfl
  | succ n ih =>
    intro x
    rw [encode, length_cons, ih]

@[simp] theorem length_encodeInt (n : ℕ) (z : ℤ) : (encodeInt n z).length = n := length_encode n _

/-- **What was encoded is decoded**, as far as it fits. -/
theorem decode_encode (n : ℕ) : ∀ x, decode (encode n x) = x % 256 ^ n := by
  induction n with
  | zero =>
    intro x
    rw [Nat.pow_zero, Nat.mod_one]
    rfl
  | succ n ih =>
    intro x
    have hbyte : (UInt8.ofNat x).toNat = x % 256 := UInt8.toNat_ofNat'
    rw [encode, decode, ih, hbyte, Nat.pow_succ', Nat.mod_mul]

variable {n : ℕ}

variable {x : ℕ}

/-- A number that fits comes back. -/
theorem decode_encode_of_lt (h : x < 256 ^ n) : decode (encode n x) = x := by
  rw [decode_encode, Nat.mod_eq_of_lt h]

/-- The bound of `n` bytes. -/
theorem decode_lt (bs : List UInt8) : decode bs < 256 ^ bs.length := by
  induction bs with
  | nil => decide
  | cons b bs ih =>
    have hb := b.toNat_lt
    rw [decode, length_cons, Nat.pow_succ]
    omega

theorem decode_zeros (n : ℕ) : decode (List.replicate n 0) = 0 := by
  induction n with
  | zero => rfl
  | succ n ih =>
    rw [replicate_succ, decode, ih]
    rfl

/-- **A signed number comes back** reduced to the range of its bytes. -/
theorem decodeInt_encodeInt (n : ℕ) (z : ℤ) : decodeInt (encodeInt n z) = Int.bmod z (256 ^ n) := by
  have hpos : 0 < 256 ^ n := Nat.pow_pos (by decide)
  have hcast : ((z % (256 ^ n : ℕ)).toNat : ℤ) = z % (256 ^ n : ℕ) :=
    Int.toNat_of_nonneg (Int.emod_nonneg z (by omega))
  unfold decodeInt encodeInt
  rw [length_encode, decode_encode, Int.natCast_emod, hcast, Int.emod_emod, Int.emod_bmod]

/-- A signed number that fits comes back. -/
theorem decodeInt_encodeInt_of_lt {z : ℤ} (hlo : -(256 ^ n : ℕ) ≤ 2 * z) (hhi : 2 * z < (256 ^ n : ℕ)) :
    decodeInt (encodeInt n z) = z := by
  rw [decodeInt_encodeInt]
  exact Int.bmod_eq_of_le_mul_two (by omega) (by omega)

theorem encodeInt_natCast (h : x < 256 ^ n) : encodeInt n (x : ℤ) = encode n x := by
  unfold encodeInt
  rw [Int.emod_eq_of_lt (Int.natCast_nonneg x) (by omega), Int.toNat_natCast]

theorem decodeInt_encode_of_lt (h : 2 * x < 256 ^ n) : decodeInt (encode n x) = x := by
  rw [← encodeInt_natCast (by omega)]
  exact decodeInt_encodeInt_of_lt (by omega) (by omega)

/-! ## §2. Files. -/

/-- Bytes up to a length, and zeros behind it. -/
structure ByteFile where
  byte : ℕ → UInt8
  size : ℕ
  beyond : ∀ i, size ≤ i → byte i = 0

namespace ByteFile

/-- A file that was just made. -/
def empty : ByteFile := ⟨fun _ => 0, 0, fun _ _ => rfl⟩

/-- The `n` bytes from position `p` on, zeros past the end. -/
def bytes (f : ByteFile) (p n : ℕ) : List UInt8 := (List.range n).map (fun i => f.byte (p + i))

/-- `fread` of `n` bytes at `p`: `none` if the file ends before. -/
def fread (f : ByteFile) (p n : ℕ) : Option (List UInt8) :=
  if p + n ≤ f.size then some (f.bytes p n) else none

/-- `fwrite` of some bytes at `p`. -/
def fwrite (f : ByteFile) (p : ℕ) (bs : List UInt8) : ByteFile where
  byte i := if p ≤ i ∧ i < p + bs.length then bs.getD (i - p) 0 else f.byte i
  size := max f.size (p + bs.length)
  beyond := by
    intro i hi
    rw [if_neg (by omega), f.beyond i (by omega)]

variable {f : ByteFile} {p q n : ℕ}

/-- Files with the same bytes and size are the same. -/
@[ext] theorem ext {g : ByteFile} (hbyte : ∀ i, f.byte i = g.byte i) (hsize : f.size = g.size) : f = g := by
  obtain ⟨b, n, h⟩ := f
  obtain ⟨b', n', h'⟩ := g
  have hb : b = b' := funext hbyte
  subst hb
  have hn : n = n' := hsize
  subst hn
  rfl

@[simp] theorem length_bytes (f : ByteFile) (p n : ℕ) : (f.bytes p n).length = n := by
  rw [bytes, length_map, length_range]

/-- A read depends on its bytes alone. -/
theorem bytes_congr {g : ByteFile} (h : ∀ i < n, f.byte (p + i) = g.byte (q + i)) :
    f.bytes p n = g.bytes q n := by
  apply map_congr_left
  intro i hi
  exact h i (mem_range.mp hi)

/-- Two reads in a row are one. -/
theorem bytes_add (f : ByteFile) (p m n : ℕ) : f.bytes p (m + n) = f.bytes p m ++ f.bytes (p + m) n := by
  unfold bytes
  rw [range_add, map_append, map_map]
  congr 1
  apply map_congr_left
  intro i _
  show f.byte (p + (m + i)) = f.byte (p + m + i)
  rw [Nat.add_assoc]

variable {a b : List UInt8}

/-- One read is two in a row. -/
theorem bytes_eq_append (h : f.bytes p (a ++ b).length = a ++ b) :
    f.bytes p a.length = a ∧ f.bytes (p + a.length) b.length = b := by
  rw [length_append, bytes_add] at h
  exact append_inj h (length_bytes f p a.length)

theorem length_flatMap_range {k : ℕ} {g : ℕ → List UInt8} (hg : ∀ i, (g i).length = k) (n : ℕ) :
    ((List.range n).flatMap g).length = k * n := by
  induction n with
  | zero => rfl
  | succ n ih =>
    rw [range_succ, flatMap_append, length_append, ih, flatMap_singleton, hg]
    rfl

/-- Reading one of `n` pieces of the same length. -/
theorem bytes_flatMap_range {k : ℕ} {g : ℕ → List UInt8} (hg : ∀ i, (g i).length = k) (n : ℕ)
    (h : f.bytes p ((List.range n).flatMap g).length = (List.range n).flatMap g) {i : ℕ} (hi : i < n) :
    f.bytes (p + k * i) k = g i := by
  induction n with
  | zero => omega
  | succ n ih =>
    rw [range_succ, flatMap_append, flatMap_singleton] at h
    obtain ⟨hfirst, hlast⟩ := bytes_eq_append h
    by_cases heq : i = n
    · rw [length_flatMap_range hg, hg] at hlast
      rw [heq]
      exact hlast
    · exact ih hfirst (by omega)

/-! ## §3. A write and what is read after it. -/

@[simp] theorem size_fwrite (f : ByteFile) (p : ℕ) (bs : List UInt8) :
    (f.fwrite p bs).size = max f.size (p + bs.length) := rfl

/-- **Elsewhere nothing changes.** -/
theorem bytes_fwrite_of_disjoint {bs : List UInt8} (h : q + n ≤ p ∨ p + bs.length ≤ q) :
    (f.fwrite p bs).bytes q n = f.bytes q n := by
  apply bytes_congr
  intro i hi
  show (if p ≤ q + i ∧ q + i < p + bs.length then _ else _) = _
  rw [if_neg (by omega)]

/-- **A write is read back**, in one piece or a part of it. -/
theorem bytes_fwrite_inside (a b c : List UInt8) :
    (f.fwrite p (a ++ b ++ c)).bytes (p + a.length) b.length = b := by
  apply ext_getElem
  · rw [length_bytes]
  · intro i h₁ h₂
    simp only [bytes, fwrite, getElem_map, getElem_range]
    rw [if_pos (by simp only [length_append]; omega), getD_eq_getElem?_getD,
      append_assoc, getElem?_append_right (by omega), getElem?_append_left (by omega),
      show p + a.length + i - p - a.length = i by omega, getElem?_eq_getElem h₂, Option.getD_some]

/-- What was written is read. -/
theorem bytes_fwrite_self (f : ByteFile) (p : ℕ) (bs : List UInt8) :
    (f.fwrite p bs).bytes p bs.length = bs := by
  have h := bytes_fwrite_inside (f := f) (p := p) [] bs []
  simpa using h

theorem bytes_fwrite_zeros {m : ℕ} (hlo : p ≤ q) (hhi : q + n ≤ p + m) :
    (f.fwrite p (List.replicate m 0)).bytes q n = List.replicate n 0 := by
  have hsplit : List.replicate m (0 : UInt8) =
      List.replicate (q - p) 0 ++ List.replicate n 0 ++ List.replicate (m - (q - p) - n) 0 := by
    rw [replicate_append_replicate, replicate_append_replicate]
    congr 1
    omega
  have h := bytes_fwrite_inside (f := f) (p := p) (List.replicate (q - p) 0) (List.replicate n 0)
    (List.replicate (m - (q - p) - n) 0)
  rw [length_replicate, length_replicate, show p + (q - p) = q by omega] at h
  rw [hsplit]
  exact h

/-- Disjoint writes commute. -/
theorem fwrite_comm (f : ByteFile) (h : q + b.length ≤ p ∨ p + a.length ≤ q) :
    (f.fwrite p a).fwrite q b = (f.fwrite q b).fwrite p a := by
  apply ext
  · intro i
    simp only [fwrite]
    by_cases hp : p ≤ i ∧ i < p + a.length
    · rw [if_pos hp, if_neg (by omega), if_pos hp]
    · rw [if_neg hp, if_neg hp]
  · simp only [size_fwrite]
    omega

/-- Two writes in a row are one. -/
theorem fwrite_append (f : ByteFile) (p : ℕ) (a b : List UInt8) :
    (f.fwrite p a).fwrite (p + a.length) b = f.fwrite p (a ++ b) := by
  apply ext
  · intro i
    simp only [fwrite, length_append, getD_eq_getElem?_getD]
    by_cases ha : p ≤ i ∧ i < p + a.length
    · rw [if_neg (by omega), if_pos ha, if_pos (by omega), getElem?_append_left (by omega)]
    by_cases hb : p + a.length ≤ i ∧ i < p + a.length + b.length
    · rw [if_pos hb, if_pos (by omega), getElem?_append_right (by omega),
        show i - (p + a.length) = i - p - a.length by omega]
    · rw [if_neg hb, if_neg ha, if_neg (by omega)]
  · simp only [size_fwrite, length_append]
    omega

/-- A read inside the file gets its bytes. -/
theorem fread_of_le (h : p + n ≤ f.size) : f.fread p n = some (f.bytes p n) :=
  if_pos h

end ByteFile

end KalavaPir.Framework
