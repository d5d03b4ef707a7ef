/-
  KalavaPir.Common.QBitMap2 — the bit array of `common/qbitmap.h`.

  Sixteen bits share a `uint16_t`, the first of them in its highest place.
  `set_bit` shifts the word apart and together again; where it means to take a bit
  out it asks for `temp%2==-1`, which no `uint16_t` answers.  And the words,
  `(set_size_+15)>>4` of `uint32_t`, are none at all for the last fifteen sizes.
-/
import KalavaPir.Framework.Histories
import Mathlib.Algebra.Order.Ring.Int

namespace KalavaPir.Common

open KalavaPir.Framework Option Function

/-! ## §1. The bit array and its calls (qbitmap.h:195). -/

/-- The fields of the class; `q_new_array` found memory for the words. -/
structure QBitMap2 where
  set_size_ : UInt32
  vec_size_ : UInt32
  pBitVector : Array UInt16

namespace QBitMap2

/-- The constructor `QBitMap2(size)`, with `Q_ASSERT(set_size_>0)`. -/
def make (size : UInt32) : Option QBitMap2 :=
  if size > 0 then
    some
      { set_size_ := size
        vec_size_ := (size + 15) >>> 4
        pBitVector := Array.replicate ((size + 15) >>> 4).toNat 0 }
  else none

/-- `clear()`. -/
def clear (q : QBitMap2) : QBitMap2 :=
  { q with pBitVector := q.pBitVector.mapIdx fun i elem => if i < q.vec_size_.toNat then 0 else elem }

/-- `(elem>>(15-id))%2` -/
def wordBit (elem : UInt16) (id : ℕ) : Bool := (elem.toNat >>> (15 - id)) % 2 != 0

/-- `bit(x)`; there is nothing to read behind the words. -/
def bit (q : QBitMap2) (x : UInt32) : Option Bool :=
  q.pBitVector[(x / 16).toNat]?.map fun elem => wordBit elem (x % 16).toNat

/-- The word that `set_bit` stores.  The shifts are made on `int`, and what is
    assigned to a `uint16_t` loses its upper half. -/
def setWord (elem : UInt16) (id : ℕ) (v : UInt16) : UInt16 :=
  let temp := UInt16.ofNat (elem.toNat >>> (15 - id))
  let elem := UInt16.ofNat (elem.toNat <<< (id + 1))
  let temp :=
    if Int.tmod temp.toNat 2 = 0 ∧ v = 1 then temp + 1
    else if Int.tmod temp.toNat 2 = -1 ∧ v = 0 then temp - 1
    else temp
  UInt16.ofNat ((temp.toNat <<< (15 - id)) ||| (elem.toNat >>> (id + 1)))

/-- `set_bit(x, v)`. -/
def set_bit (q : QBitMap2) (x : UInt32) (v : UInt16) : Option QBitMap2 :=
  q.pBitVector[(x / 16).toNat]?.map fun elem =>
    { q with pBitVector := q.pBitVector.set! (x / 16).toNat (setWord elem (x % 16).toNat v) }

/-- `turn_on_bit(x)`. -/
def turn_on_bit (q : QBitMap2) (x : UInt32) : Option (Bool × QBitMap2) :=
  if x < q.set_size_ then
    (q.bit x).bind fun b => if b = false then (q.set_bit x 1).map (Prod.mk true) else some (false, q)
  else none

/-- `turn_off_bit(x)`. -/
def turn_off_bit (q : QBitMap2) (x : UInt32) : Option (Bool × QBitMap2) :=
  if x < q.set_size_ then
    (q.bit x).bind fun b => if b = true then (q.set_bit x 0).map (Prod.mk true) else some (false, q)
  else none

/-- The calls; `set_bit` is made with 0 or 1. -/
inductive Call
  | set_bit (x : UInt32) (v : Bool)
  | turn_on_bit (x : UInt32)
  | turn_off_bit (x : UInt32)
  | clear

/-- A call, with the flag it returns, if any. -/
def step (q : QBitMap2) : Call → Except Stop (Option Bool × QBitMap2)
  | .set_bit x v => checked (q.set_bit x v.toUInt16) fun q => .ok (none, q)
  | .turn_on_bit x => checked (q.turn_on_bit x) fun r => .ok (some r.1, r.2)
  | .turn_off_bit x => checked (q.turn_off_bit x) fun r => .ok (some r.1, r.2)
  | .clear => .ok (none, q.clear)

/-- The bit a call is about lies below the size. -/
def Call.Below (size : UInt32) : Call → Prop
  | .set_bit x _ => x < size
  | .turn_on_bit x => x < size
  | .turn_off_bit x => x < size
  | .clear => True

instance (size : UInt32) (l : Call) : Decidable (l.Below size) := by
  cases l <;> unfold Call.Below <;> infer_instance

/-! ## §2. The row of bits. -/

/-- The value that was last assigned to each place. -/
abbrev Row := UInt32 → Bool

/-- Nothing assigned yet. -/
def blank : Row := fun _ => false

/-- The same calls on the row. -/
def row (t : Row) : Call → Except Stop (Option Bool × Row)
  | .set_bit x v => .ok (none, update t x v)
  | .turn_on_bit x => .ok (some !t x, update t x true)
  | .turn_off_bit x => .ok (some (t x), update t x false)
  | .clear => .ok (none, blank)

/-- **THE BITS SHOWN** below the size are those of the row. -/
def Shows (size : UInt32) (q : QBitMap2) (t : Row) : Prop := ∀ x < size, q.bit x = some (t x)

/-- No set bit is to be taken out. -/
def Keeps (_ : QBitMap2) (t : Row) : Call → Prop
  | .set_bit x v => v = true ∨ t x = false
  | .turn_off_bit x => t x = false
  | _ => True

instance (q : QBitMap2) (t : Row) (l : Call) : Decidable (Keeps q t l) := by
  cases l <;> unfold Keeps <;> infer_instance

/-- The last size whose words can be counted. -/
def MAX_SIZE : ℕ := 0xFFFFFFF0

/-! ## §3. One word. -/

section Words

variable {elem : UInt16} {id i w : ℕ}

theorem wordBit_eq_testBit (elem : UInt16) (id : ℕ) : wordBit elem id = elem.toNat.testBit (15 - id) := by
  rw [Nat.testBit_eq_decide_div_mod_eq]
  unfold wordBit
  rw [Nat.shiftRight_eq_div_pow]
  rcases Nat.mod_two_eq_zero_or_one (elem.toNat / 2 ^ (15 - id)) with h | h <;> simp [h]

theorem testBit_rejoin {temp : ℕ} (hid : id < 16) (j : ℕ) :
    ((temp <<< (15 - id)) ||| ((w <<< (id + 1)) % 2 ^ 16) >>> (id + 1)).testBit j
      = if 15 - id ≤ j then temp.testBit (j - (15 - id)) else w.testBit j := by
  rw [Nat.testBit_or, Nat.testBit_shiftLeft, Nat.testBit_shiftRight, Nat.testBit_mod_two_pow,
    Nat.testBit_shiftLeft]
  by_cases hj : 15 - id ≤ j
  · have hout : ¬ id + 1 + j < 16 := by omega
    simp [hj, hout]
  · have hin : id + 1 + j < 16 := by omega
    have hle : id + 1 ≤ id + 1 + j := by omega
    simp [hj, hin, hle]

theorem upper_lt (elem : UInt16) (id : ℕ) : elem.toNat >>> (15 - id) < 2 ^ 16 := by
  have hle : elem.toNat >>> (15 - id) ≤ elem.toNat := Nat.shiftRight_le _ _
  have hlt : elem.toNat < 2 ^ 16 := elem.toNat_lt
  omega

theorem upper_toNat (elem : UInt16) (id : ℕ) :
    (UInt16.ofNat (elem.toNat >>> (15 - id))).toNat = elem.toNat >>> (15 - id) := by
  rw [UInt16.toNat_ofNat', Nat.mod_eq_of_lt (upper_lt elem id)]

/-- A word whose upper bits are changed to `temp`. -/
def joined (elem : UInt16) (id temp : ℕ) : UInt16 :=
  UInt16.ofNat ((temp <<< (15 - id)) ||| ((elem.toNat <<< (id + 1)) % 2 ^ 16) >>> (id + 1))

theorem testBit_joined {temp j : ℕ} (hid : id < 16) (hj : j < 16) : (joined elem id temp).toNat.testBit j
      = if 15 - id ≤ j then temp.testBit (j - (15 - id)) else elem.toNat.testBit j := by
  unfold joined
  rw [UInt16.toNat_ofNat', Nat.testBit_mod_two_pow, testBit_rejoin hid]
  simp [hj]

theorem joined_same (hid : id < 16) : joined elem id (elem.toNat >>> (15 - id)) = elem := by
  apply UInt16.toNat_inj.mp
  apply Nat.eq_of_testBit_eq
  intro j
  by_cases hj : j < 16
  · rw [testBit_joined hid hj]
    by_cases hle : 15 - id ≤ j
    · rw [if_pos hle, Nat.testBit_shiftRight, Nat.add_sub_cancel' hle]
    · rw [if_neg hle]
  · have hout : ∀ e : UInt16, e.toNat.testBit j = false := fun e =>
      Nat.testBit_lt_two_pow (Nat.lt_of_lt_of_le e.toNat_lt (Nat.pow_le_pow_right (by decide) (by omega)))
    rw [hout, hout]

theorem setWord_eq (elem : UInt16) (id : ℕ) (v : UInt16) : setWord elem id v =
      if wordBit elem id = false ∧ v = 1 then joined elem id (elem.toNat >>> (15 - id) + 1)
      else joined elem id (elem.toNat >>> (15 - id)) := by
  have hupper := upper_toNat elem id
  have htmod : ∀ n : ℕ, Int.tmod (n : ℤ) 2 = (n % 2 : ℕ) := fun n => by
    rfl
  have hnever : ¬ (((elem.toNat >>> (15 - id)) % 2 : ℕ) : ℤ) = -1 := by omega
  have hbit : wordBit elem id = false ↔ (((elem.toNat >>> (15 - id)) % 2 : ℕ) : ℤ) = 0 := by
    unfold wordBit
    rw [bne_eq_false_iff_eq, Int.natCast_eq_zero]
  unfold setWord joined
  dsimp only
  rw [hupper, htmod, UInt16.toNat_ofNat']
  simp only [hnever, false_and, if_false, ← hbit]
  by_cases hset : wordBit elem id = false ∧ v = 1
  · rw [if_pos hset, if_pos hset]
    have heven : elem.toNat >>> (15 - id) % 2 = 0 := by
      have := hbit.mp hset.1
      omega
    have hlt := upper_lt elem id
    rw [UInt16.toNat_add, hupper]
    have hone : (1 : UInt16).toNat = 1 := rfl
    rw [hone, Nat.mod_eq_of_lt (by omega)]
  · rw [if_neg hset, if_neg hset, hupper]

/-- **NOTHING IS TAKEN OUT.** -/
theorem setWord_zero (hid : id < 16) : setWord elem id 0 = elem := by
  have hne : ¬ (wordBit elem id = false ∧ (0 : UInt16) = 1) := fun h => absurd h.2 (by decide)
  rw [setWord_eq, if_neg hne, joined_same hid]

/-- **ONE BIT PUT IN**, and its fifteen neighbours left alone. -/
theorem wordBit_setWord_one (hid : id < 16) (hi : i < 16) :
    wordBit (setWord elem id 1) i = if i = id then true else wordBit elem i := by
  rw [setWord_eq]
  by_cases hbit : wordBit elem id = false
  · rw [if_pos ⟨hbit, rfl⟩, wordBit_eq_testBit, wordBit_eq_testBit, testBit_joined hid (by omega)]
    rw [wordBit_eq_testBit] at hbit
    by_cases hle : i ≤ id
    · have hj : 15 - id ≤ 15 - i := by omega
      rw [if_pos hj]
      have heven : elem.toNat >>> (15 - id) % 2 = 0 := by
        rw [Nat.testBit_eq_decide_div_mod_eq, decide_eq_false_iff_not] at hbit
        omega
      have hsucc : ∀ d, (elem.toNat >>> (15 - id) + 1).testBit (d + 1)
          = (elem.toNat >>> (15 - id)).testBit (d + 1) := by
        intro d
        rw [Nat.testBit_succ, Nat.testBit_succ]
        have hhalf : (elem.toNat >>> (15 - id) + 1) / 2 = elem.toNat >>> (15 - id) / 2 := by omega
        rw [hhalf]
      by_cases heq : i = id
      · rw [if_pos heq, heq, Nat.sub_self, Nat.testBit_zero, decide_eq_true_iff]
        omega
      rw [if_neg heq]
      have hd : 15 - i - (15 - id) = (id - i - 1) + 1 := by omega
      rw [hd, hsucc, Nat.testBit_shiftRight]
      have hback : 15 - id + (id - i - 1 + 1) = 15 - i := by omega
      rw [hback]
    · have hj : ¬ 15 - id ≤ 15 - i := by omega
      have hne : i ≠ id := by omega
      rw [if_neg hj, if_neg hne]
  · rw [if_neg fun h => hbit h.1, joined_same hid]
    by_cases heq : i = id
    · rw [if_pos heq, heq]
      exact Bool.of_not_eq_false hbit
    · rw [if_neg heq]

end Words

/-! ## §4. Calls. -/

section Calls

variable {q q' : QBitMap2} {t : Row} {size x y : UInt32}

/-- The words of an array of this size are there. -/
structure Sized (size : UInt32) (q : QBitMap2) : Prop where
  set_size : q.set_size_ = size
  vec_size : q.pBitVector.size = q.vec_size_.toNat
  words : ∀ x < size, (x / 16).toNat < q.pBitVector.size

theorem place_lt (x : UInt32) : (x % 16).toNat < 16 := by
  exact Nat.mod_lt _ (by decide)

theorem place_ext (hdiv : (y / 16).toNat = (x / 16).toNat) (hmod : (y % 16).toNat = (x % 16).toNat) :
    y = x := by
  rw [UInt32.toNat_div, UInt32.toNat_div] at hdiv
  rw [UInt32.toNat_mod, UInt32.toNat_mod] at hmod
  have h16 : (16 : UInt32).toNat = 16 := rfl
  rw [h16] at hdiv hmod
  apply UInt32.toNat_inj.mp
  omega

theorem set_bit_zero (hx : (x / 16).toNat < q.pBitVector.size) : q.set_bit x 0 = some q := by
  unfold set_bit
  rw [Array.getElem?_eq_getElem hx, map_some, setWord_zero (place_lt x)]
  have hsame : q.pBitVector.set! (x / 16).toNat q.pBitVector[(x / 16).toNat] = q.pBitVector := by
    rw [Array.set!_eq_setIfInBounds, Array.setIfInBounds_def, dif_pos hx, Array.set_getElem_self]
  rw [hsame]

/-- `set_bit(x, 1)` puts in the bit and no other. -/
theorem set_bit_one (hq : Sized size q) (hx : x < size) :
    ∃ q', q.set_bit x 1 = some q' ∧ Sized size q' ∧ ∀ y, q'.bit y = if y = x then some true else q.bit y := by
  have hword := hq.words x hx
  have hsize : (q.pBitVector.set! (x / 16).toNat (setWord q.pBitVector[(x / 16).toNat] (x % 16).toNat 1)).size
      = q.pBitVector.size := by
    rw [Array.set!_eq_setIfInBounds, Array.size_setIfInBounds]
  refine ⟨{ q with
    pBitVector := q.pBitVector.set! (x / 16).toNat (setWord q.pBitVector[(x / 16).toNat] (x % 16).toNat 1) },
    ?_, ⟨hq.set_size, ?_, ?_⟩, ?_⟩
  · unfold set_bit
    rw [Array.getElem?_eq_getElem hword, map_some]
  · exact hsize.trans hq.vec_size
  · intro y hy
    rw [hsize]
    exact hq.words y hy
  · intro y
    unfold bit
    rw [Array.set!_eq_setIfInBounds, Array.getElem?_setIfInBounds]
    by_cases hdiv : (x / 16).toNat = (y / 16).toNat
    · rw [if_pos hdiv, if_pos hword, map_some, wordBit_setWord_one (place_lt x) (place_lt y)]
      by_cases hmod : (y % 16).toNat = (x % 16).toNat
      · rw [if_pos hmod, if_pos (place_ext hdiv.symm hmod)]
      have hne : y ≠ x := by
        intro h
        rw [h] at hmod
        exact hmod rfl
      rw [if_neg hmod, if_neg hne, ← hdiv, Array.getElem?_eq_getElem hword, map_some]
    · have hne : y ≠ x := by
        intro h
        rw [h] at hdiv
        exact hdiv rfl
      rw [if_neg hdiv, if_neg hne]

theorem clear_sized (hq : Sized size q) : Sized size q.clear := by
  have hsize : q.clear.pBitVector.size = q.pBitVector.size := Array.size_mapIdx
  refine ⟨hq.set_size, hsize.trans hq.vec_size, fun x hx => ?_⟩
  rw [hsize]
  exact hq.words x hx

theorem bit_clear (hq : Sized size q) (hx : x < size) : q.clear.bit x = some false := by
  have hword := hq.words x hx
  have hvec : (x / 16).toNat < q.vec_size_.toNat := by
    rw [← hq.vec_size]
    exact hword
  have hzero : ∀ i < 16, wordBit 0 i = false := by decide
  unfold clear bit
  rw [Array.getElem?_mapIdx, Array.getElem?_eq_getElem hword, map_some, map_some, if_pos hvec,
    hzero _ (place_lt x)]

theorem Shows.put (h : Shows size q t) (hbit : ∀ y, q'.bit y = if y = x then some true else q.bit y) :
    Shows size q' (update t x true) := by
  intro y hy
  rw [hbit]
  by_cases hyx : y = x
  · rw [if_pos hyx, hyx, update_self]
  · rw [if_neg hyx, update_of_ne hyx]
    exact h y hy

theorem update_same {v : Bool} (hv : t x = v) : update t x v = t := by
  rw [← hv, update_eq_self]

/-- **CALLS THAT TAKE OUT NO SET BIT** do to the array what they do to the row. -/
theorem step_matched {l : Call} (hR : Shows size q t) (hq : Sized size q) (hl : l.Below size)
    (hkeep : Keeps q t l) : Matched (fun q t => Shows size q t ∧ Sized size q) (step q l) (row t l) := by
  cases l with
  | set_bit x v =>
    have hx : x < size := hl
    cases v with
    | true =>
      obtain ⟨q', hset, hq', hbit⟩ := set_bit_one hq hx
      show Matched _ (checked (q.set_bit x 1) fun q => .ok (none, q)) _
      rw [hset, checked_some]
      exact .answer ⟨hR.put hbit, hq'⟩
    | false =>
      have hfalse : t x = false := hkeep.resolve_left Bool.false_ne_true
      show Matched _ (checked (q.set_bit x 0) fun q => .ok (none, q)) (.ok (none, update t x false))
      rw [set_bit_zero (hq.words x hx), checked_some, update_same hfalse]
      exact .answer ⟨hR, hq⟩
  | turn_on_bit x =>
    have hx : x < size := hl
    have hin : x < q.set_size_ := by
      rw [hq.set_size]
      exact hx
    show Matched _ (checked (q.turn_on_bit x) fun r => .ok (some r.1, r.2))
      (.ok (some !t x, update t x true))
    unfold turn_on_bit
    rw [if_pos hin, hR x hx, bind_some]
    cases htx : t x with
    | true =>
      rw [if_neg (by decide), checked_some, update_same htx]
      exact .answer ⟨hR, hq⟩
    | false =>
      obtain ⟨q', hset, hq', hbit⟩ := set_bit_one hq hx
      rw [if_pos rfl, hset, map_some, checked_some]
      exact .answer ⟨hR.put hbit, hq'⟩
  | turn_off_bit x =>
    have hx : x < size := hl
    have hfalse : t x = false := hkeep
    have hin : x < q.set_size_ := by
      rw [hq.set_size]
      exact hx
    show Matched _ (checked (q.turn_off_bit x) fun r => .ok (some r.1, r.2))
      (.ok (some (t x), update t x false))
    unfold turn_off_bit
    rw [if_pos hin, hR x hx, bind_some, hfalse, if_neg (by decide), checked_some, update_same hfalse]
    exact .answer ⟨hR, hq⟩
  | clear => exact .answer ⟨fun x hx => bit_clear hq hx, clear_sized hq⟩

theorem not_shows_off (hR : Shows size q t) (hx : x < size) (ht : t x = true) :
    ¬ Shows size q (update t x false) := by
  intro h
  have hshown := h x hx
  rw [update_self, hR x hx, ht] at hshown
  cases hshown

/-- **A SET BIT IS NEVER TAKEN OUT.** -/
theorem not_step_matched {l : Call} (hR : Shows size q t) (hq : Sized size q) (hl : l.Below size)
    (hkeep : ¬ Keeps q t l) : ¬ Matched (Shows size) (step q l) (row t l) := by
  intro h
  cases l with
  | set_bit x v =>
    have hx : x < size := hl
    cases v with
    | true => exact hkeep (Or.inl rfl)
    | false =>
      have htrue : t x = true := Bool.of_not_eq_false fun h => hkeep (Or.inr h)
      have hstep : step q (.set_bit x false) = .ok (none, q) := by
        show checked (q.set_bit x 0) _ = _
        rw [set_bit_zero (hq.words x hx), checked_some]
      rw [hstep] at h
      exact not_shows_off hR hx htrue (matched_ok_iff.mp h).2
  | turn_on_bit x => exact hkeep trivial
  | turn_off_bit x =>
    have hx : x < size := hl
    have htrue : t x = true := Bool.of_not_eq_false hkeep
    have hin : x < q.set_size_ := by
      rw [hq.set_size]
      exact hx
    have hstep : step q (.turn_off_bit x) = .ok (some true, q) := by
      show checked (q.turn_off_bit x) _ = _
      unfold turn_off_bit
      rw [if_pos hin, hR x hx, bind_some, htrue, if_pos rfl, set_bit_zero (hq.words x hx),
        map_some, checked_some]
    rw [hstep] at h
    exact not_shows_off hR hx htrue (matched_ok_iff.mp h).2
  | clear => exact hkeep trivial

/-! ## §5. Histories. -/

theorem vec_size_toNat (size : UInt32) : ((size + 15) >>> 4).toNat = (size.toNat + 15) % 2 ^ 32 / 16 := by
  rw [UInt32.toNat_shiftRight, UInt32.toNat_add]
  have h15 : (15 : UInt32).toNat = 15 := rfl
  have h4 : (4 : UInt32).toNat % 32 = 4 := rfl
  rw [h15, h4, Nat.shiftRight_eq_div_pow]

/-- A new array shows nothing assigned, if it has its words. -/
theorem make_shows (hq : make size = some q) (hsize : size.toNat ≤ MAX_SIZE) :
    Shows size q blank ∧ Sized size q := by
  unfold make at hq
  split at hq
  case isFalse => cases hq
  cases hq
  have hwords : ∀ x < size, (x / 16).toNat < ((size + 15) >>> 4).toNat := by
    intro x hx
    have hlt : x.toNat < size.toNat := UInt32.lt_iff_toNat_lt.mp hx
    have hmax : size.toNat ≤ 0xFFFFFFF0 := hsize
    have h16 : (16 : UInt32).toNat = 16 := rfl
    rw [vec_size_toNat, UInt32.toNat_div, h16]
    omega
  have hzero : ∀ i < 16, wordBit 0 i = false := by decide
  refine ⟨fun x hx => ?_, rfl, Array.size_replicate, fun x hx => ?_⟩
  · unfold bit
    rw [Array.getElem?_replicate, if_pos (hwords x hx), map_some, hzero _ (place_lt x)]
    rfl
  · show (x / 16).toNat < (Array.replicate _ _).size
    rw [Array.size_replicate]
    exact hwords x hx

/-- The last sizes have no words at all. -/
theorem not_make_shows (hq : make size = some q) (hsize : ¬ size.toNat ≤ MAX_SIZE) : ¬ Shows size q blank := by
  unfold make at hq
  split at hq
  case isFalse => cases hq
  case isTrue hpos =>
    cases hq
    intro h
    have hmax : ¬ size.toNat ≤ 0xFFFFFFF0 := hsize
    have hlt : size.toNat < 2 ^ 32 := size.toNat_lt
    have hnone : ((size + 15) >>> 4).toNat = 0 := by
      rw [vec_size_toNat]
      omega
    have hshown := h 0 hpos
    rw [hnone] at hshown
    cases hshown

/-- **THE ARRAY SHOWS THE LAST ASSIGNMENTS** after every call of a history, and the
    calls answer what they change, exactly when the size leaves room for the rounding
    and no call takes out a set bit. -/
theorem history_shows_iff {ls : List Call} (hq : make size = some q) (hls : ∀ l ∈ ls, l.Below size) :
    (∀ n, Matched (Shows size) (history step q (ls.take n)) (history row blank (ls.take n))) ↔
      size.toNat ≤ MAX_SIZE ∧ Framework.Calls step row Keeps q blank ls := by
  by_cases hsize : size.toNat ≤ MAX_SIZE
  · obtain ⟨hR, hI⟩ := make_shows hq hsize
    rw [and_iff_right hsize]
    apply matched_iff_calls (G := fun _ _ l => l.Below size) (fun q _ => Sized size q) ?_ ?_ hR hI
      (Framework.Calls.of_forall hls)
    · intro q t l hR hI hl hkeep
      exact step_matched hR hI hl hkeep
    · intro q t l hR hI hl hkeep
      exact not_step_matched hR hI hl hkeep
  · constructor
    · intro h
      exact absurd (matched_ok_iff.mp (h 0)).2 (not_make_shows hq hsize)
    · intro h
      exact absurd h.1 hsize

/-- Bits put in, asked for and cleared. -/
theorem history_shows_20 :
    ∃ q, make 20 = some q ∧
      ∀ n, Matched (Shows 20)
        (history step q ([.set_bit 3 true, .turn_on_bit 17, .turn_off_bit 4, .clear, .set_bit 3 false].take n))
        (history row blank
          ([.set_bit 3 true, .turn_on_bit 17, .turn_off_bit 4, .clear, .set_bit 3 false].take n)) := by
  have hmake : (make 20).isSome = true := by decide
  obtain ⟨q, hq⟩ := Option.isSome_iff_exists.mp hmake
  refine ⟨q, hq, (history_shows_iff hq (by decide)).mpr ?_⟩
  have hq' := hq
  cases hq'
  decide

/-- A bit put in and taken out again is still shown. -/
theorem turn_off_bit_keeps :
    ¬ ∀ (size : UInt32) (q : QBitMap2) (ls : List Call), make size = some q → (∀ l ∈ ls, l.Below size) →
      ∀ n, Matched (Shows size) (history step q (ls.take n)) (history row blank (ls.take n)) := by
  intro h
  have hmatched := h 16 _ [.turn_on_bit 0, .turn_off_bit 0] rfl (by decide) 2
  obtain ⟨-, hshows⟩ := matched_ok_iff.mp hmatched
  exact absurd (hshows 0 (by decide)) (by decide)

end Calls

end QBitMap2

end KalavaPir.Common
