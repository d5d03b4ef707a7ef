/-
  KalavaPir.Common.QTime — the time of a day, `common/qdatetime.h`.

  A time is a number of milliseconds since midnight, or one of two others: -1 for
  no time at all and a whole day for a time that could not be set.  Overflow of an
  `int32_t` has no defined behaviour and is `none`.
-/
import KalavaPir.Common.Int32

namespace KalavaPir.Common

/-! ## §1. Times. -/

/-- The units of time. -/
def MSECS_PER_DAY : ℤ := 86400000
def SECS_PER_HOUR : ℤ := 3600
def SECS_PER_MIN : ℤ := 60

/-- `QTime::NullTime`. -/
def NullTime : ℤ := -1

/-- qdatetime.h:216. -/
structure QTime where
  mds : ℤ
  range : NullTime ≤ mds ∧ mds ≤ MSECS_PER_DAY

namespace QTime

/-- The time was never set. -/
def isNull (t : QTime) : Prop := t.mds = NullTime

/-- qdatetime.h:228, which is also true of no time at all. -/
def isValid (t : QTime) : Prop := t.mds < MSECS_PER_DAY

/-- `QTime()`. -/
def null : QTime := ⟨NullTime, by decide⟩

/-- qdatetime.h:315; the numbers are compared as `uint32_t`. -/
def isValidHMS (h m s ms : ℤ) : Prop :=
  h % 2 ^ 32 < 24 ∧ m % 2 ^ 32 < 60 ∧ s % 2 ^ 32 < 60 ∧ ms % 2 ^ 32 < 1000

instance (h m s ms : ℤ) : Decidable (isValidHMS h m s ms) := inferInstanceAs (Decidable (_ ∧ _))

/-- The sum of the units, in `uint32_t`. -/
def mdsOf (h m s ms : ℤ) : ℤ :=
  ((h % 2 ^ 32 * SECS_PER_HOUR + m % 2 ^ 32 * SECS_PER_MIN + s % 2 ^ 32) * 1000 + ms % 2 ^ 32) % 2 ^ 32

variable {ms sum : ℤ}

theorem mdsOf_range {h m s : ℤ} (hvalid : isValidHMS h m s ms) :
    0 ≤ mdsOf h m s ms ∧ mdsOf h m s ms < MSECS_PER_DAY := by
  obtain ⟨hh, hm, hs, hms⟩ := hvalid
  have hnonneg : ∀ x : ℤ, 0 ≤ x % 2 ^ 32 := fun x => Int.emod_nonneg x (by decide)
  have hh' := hnonneg h
  have hm' := hnonneg m
  have hs' := hnonneg s
  have hms' := hnonneg ms
  unfold mdsOf MSECS_PER_DAY SECS_PER_HOUR SECS_PER_MIN
  generalize h % 2 ^ 32 = h at hh hh' ⊢
  generalize m % 2 ^ 32 = m at hm hm' ⊢
  generalize s % 2 ^ 32 = s at hs hs' ⊢
  generalize ms % 2 ^ 32 = ms at hms hms' ⊢
  rw [Int.emod_eq_of_lt (by omega) (by omega)]
  omega

/-- qdatetime.h:250. -/
def setHMS (h m s ms : ℤ) : QTime :=
  if hvalid : isValidHMS h m s ms then
    ⟨mdsOf h m s ms, by
      have hrange := mdsOf_range hvalid
      unfold NullTime
      omega⟩
  else ⟨MSECS_PER_DAY, by decide⟩

/-! ## §2. Adding. -/

/-- What `addMSecs` reduces by `% MSECS_PER_DAY`. -/
def msecsSum (mds ms : ℤ) : Option ℤ :=
  if ms < 0 then
    (int32 (MSECS_PER_DAY - ms)).bind fun shifted =>
      let negdays := shifted.tdiv MSECS_PER_DAY
      (int32 (mds + ms)).bind fun sum =>
        (int32 (negdays * MSECS_PER_DAY)).bind fun days => int32 (sum + days)
  else int32 (mds + ms)

/-- **WHAT IS REDUCED**: the sum, with enough days for it not to be negative, or it
    overflows. -/
theorem msecsSum_cases {mds : ℤ} (hrange : NullTime ≤ mds ∧ mds ≤ MSECS_PER_DAY) (ms : ℤ) :
    (0 ≤ ms ∧ mds + ms ≤ INT32_MAX ∧ msecsSum mds ms = some (mds + ms)) ∨
    (ms < 0 ∧ MSECS_PER_DAY - ms ≤ INT32_MAX ∧ ∃ days : ℤ,
      msecsSum mds ms = some (mds + ms + days * MSECS_PER_DAY) ∧ 0 ≤ mds + ms + days * MSECS_PER_DAY) ∨
    ((0 ≤ ms ∧ INT32_MAX < mds + ms ∨ ms < 0 ∧ INT32_MAX < MSECS_PER_DAY - ms) ∧ msecsSum mds ms = none) := by
  have hmax : INT32_MAX = 2147483647 := rfl
  have hday : MSECS_PER_DAY = 86400000 := rfl
  have hnull : NullTime = -1 := rfl
  unfold msecsSum
  by_cases hneg : ms < 0
  · rw [if_pos hneg]
    by_cases hbig : INT32_MAX < MSECS_PER_DAY - ms
    · rw [int32_of_gt hbig]
      exact Or.inr (Or.inr ⟨Or.inr ⟨hneg, hbig⟩, rfl⟩)
    have hshift : 0 ≤ MSECS_PER_DAY - ms := by omega
    rw [int32_of_le hshift (not_lt.mp hbig), Option.bind_some, Int.tdiv_eq_ediv_of_nonneg hshift]
    -- the days are more than what is taken away, and fit as well
    have hdiv := Int.ediv_mul_le (MSECS_PER_DAY - ms) (show MSECS_PER_DAY ≠ 0 by decide)
    have hmore := Int.lt_ediv_add_one_mul_self (MSECS_PER_DAY - ms) (show 0 < MSECS_PER_DAY by decide)
    generalize hdays : (MSECS_PER_DAY - ms) / MSECS_PER_DAY = days at hdiv hmore
    rw [Int.add_mul, Int.one_mul] at hmore
    refine Or.inr (Or.inl ⟨hneg, not_lt.mp hbig, days, ?_, by omega⟩)
    rw [int32_of_range (by omega) (by omega), Option.bind_some, int32_of_le (by omega) (by omega),
      Option.bind_some, int32_of_range (by omega) (by omega)]
  · rw [if_neg hneg]
    by_cases hbig : INT32_MAX < mds + ms
    · rw [int32_of_gt hbig]
      exact Or.inr (Or.inr ⟨Or.inl ⟨not_lt.mp hneg, hbig⟩, rfl⟩)
    · rw [int32_of_range (by omega) (by omega)]
      exact Or.inl ⟨not_lt.mp hneg, not_lt.mp hbig, rfl⟩

theorem msecsSum_ge {mds : ℤ} (hrange : NullTime ≤ mds ∧ mds ≤ MSECS_PER_DAY)
    (h : msecsSum mds ms = some sum) : NullTime ≤ sum := by
  have hnull : NullTime = -1 := rfl
  rcases msecsSum_cases hrange ms with ⟨hms, -, heq⟩ | ⟨-, -, days, heq, hnonneg⟩ | ⟨-, heq⟩
  · rw [heq, Option.some_inj] at h
    omega
  · rw [heq, Option.some_inj] at h
    omega
  · rw [heq] at h
    cases h

theorem tmod_range (h : NullTime ≤ sum) :
    NullTime ≤ sum.tmod MSECS_PER_DAY ∧ sum.tmod MSECS_PER_DAY ≤ MSECS_PER_DAY := by
  have hlt := Int.tmod_lt_of_pos sum (show 0 < MSECS_PER_DAY by decide)
  refine ⟨?_, le_of_lt hlt⟩
  by_cases hnull : sum = NullTime
  · rw [hnull]
    decide
  have hnonneg : 0 ≤ sum := by
    unfold NullTime at h hnull
    omega
  exact le_trans (by decide) (Int.tmod_nonneg MSECS_PER_DAY hnonneg)

/-- qdatetime.h:267. -/
def addMSecs (t : QTime) (ms : ℤ) : Option QTime :=
  (msecsSum t.mds ms).pmap (fun sum h => ⟨sum.tmod MSECS_PER_DAY, tmod_range h⟩)
    fun _ h => msecsSum_ge t.range h

/-- qdatetime.h:261. -/
def addSecs (t : QTime) (secs : ℤ) : Option QTime := (int32 (secs * 1000)).bind t.addMSecs

theorem addMSecs_eq {t : QTime} (h : msecsSum t.mds ms = some sum) :
    ∃ t', t.addMSecs ms = some t' ∧ t'.mds = sum.tmod MSECS_PER_DAY := by
  refine ⟨⟨sum.tmod MSECS_PER_DAY, tmod_range (msecsSum_ge t.range h)⟩, ?_, rfl⟩
  unfold addMSecs
  simp only [h, Option.pmap_some]

theorem addMSecs_none {t : QTime} (h : msecsSum t.mds ms = none) : t.addMSecs ms = none := by
  unfold addMSecs
  simp only [h, Option.pmap_none]

/-! ## §3. When it is modular. -/

/-- `r` is the time `ms` milliseconds after `t`, on whatever day. -/
def IsSum (t : QTime) (ms : ℤ) (r : Option QTime) : Prop :=
  ∃ t', r = some t' ∧ t'.mds = (t.mds + ms) % MSECS_PER_DAY

/-- Neither the sum nor the shift by a day leaves the range of `int32_t`, and nothing
    is not added to no time at all. -/
def AddFits (t : QTime) (ms : ℤ) : Prop :=
  t.mds + ms ≤ INT32_MAX ∧ MSECS_PER_DAY - INT32_MAX ≤ ms ∧ ¬ (t.isNull ∧ ms = 0)

/-- A sum that fits is reduced to the time of a day. -/
theorem isSum_addMSecs_iff (t : QTime) (ms : ℤ) : IsSum t ms (t.addMSecs ms) ↔ AddFits t ms := by
  have hmax : INT32_MAX = 2147483647 := rfl
  have hday : MSECS_PER_DAY = 86400000 := rfl
  have hnull : NullTime = -1 := rfl
  obtain ⟨hlow, hhigh⟩ := t.range
  unfold IsSum AddFits isNull
  rcases msecsSum_cases t.range ms with
    ⟨hms, hfit, hsum⟩ | ⟨hms, hfit, days, hsum, hnonneg⟩ | ⟨hbig, hsum⟩
  · obtain ⟨t', hrun, hmds⟩ := addMSecs_eq hsum
    rw [hrun]
    by_cases hzero : 0 ≤ t.mds + ms
    · rw [Int.tmod_eq_emod_of_nonneg hzero] at hmds
      exact ⟨fun _ => ⟨hfit, by omega, by omega⟩, fun _ => ⟨t', rfl, hmds⟩⟩
    -- no time at all stays none
    have hstays : t.mds + ms = -1 := by omega
    have hmod : ((-1 : ℤ)).tmod MSECS_PER_DAY = -1 := by decide
    rw [hstays, hmod] at hmds
    constructor
    · rintro ⟨t'', heq, hmds'⟩
      cases heq
      rw [hstays, hmds, hday] at hmds'
      omega
    · rintro ⟨-, -, hnot⟩
      exact absurd ⟨by omega, by omega⟩ hnot
  · obtain ⟨t', hrun, hmds⟩ := addMSecs_eq hsum
    rw [Int.tmod_eq_emod_of_nonneg hnonneg, Int.add_mul_emod_self_right] at hmds
    rw [hrun]
    exact ⟨fun _ => ⟨by omega, by omega, by omega⟩, fun _ => ⟨t', rfl, hmds⟩⟩
  · rw [addMSecs_none hsum]
    constructor
    · rintro ⟨t', heq, -⟩
      cases heq
    · rintro ⟨hfit, hshift, -⟩
      omega

/-- **WHEN ADDING IS MODULAR**: for milliseconds as for seconds, that neither the sum
    nor the shift of a negative number leaves the range of `int32_t`. -/
theorem addition_meets_iff (t : QTime) (ms secs : ℤ) :
    (IsSum t ms (t.addMSecs ms) ↔ AddFits t ms) ∧
    (IsSum t (1000 * secs) (t.addSecs secs) ↔ AddFits t (1000 * secs)) := by
  refine ⟨isSum_addMSecs_iff t ms, ?_⟩
  have hmax : INT32_MAX = 2147483647 := rfl
  have hmin : INT32_MIN = -2147483648 := rfl
  unfold addSecs
  by_cases hfit : IsInt32 (secs * 1000)
  · rw [int32_eq_some.mpr ⟨hfit, rfl⟩, Option.bind_some, Int.mul_comm secs 1000]
    exact isSum_addMSecs_iff t (1000 * secs)
  · rw [int32_eq_none.mpr hfit]
    have hlow := t.range.1
    have hnull : NullTime = -1 := rfl
    have hday : MSECS_PER_DAY = 86400000 := rfl
    unfold IsInt32 at hfit
    constructor
    · rintro ⟨t', heq, -⟩
      cases heq
    · rintro ⟨hsum, hshift, -⟩
      omega

/-- **The smallest `int32_t`** cannot be shifted by a day, also at midnight. -/
theorem addition_overflow : ¬ ∀ (t : QTime) (ms secs : ℤ), t.isValid → IsInt32 ms → IsInt32 secs →
    IsSum t ms (t.addMSecs ms) ∧ IsSum t (1000 * secs) (t.addSecs secs) := by
  intro h
  obtain ⟨⟨t', hrun, -⟩, -⟩ := h (setHMS 0 0 0 0) (-2 ^ 31) 0 (by
    show mdsOf 0 0 0 0 < MSECS_PER_DAY
    decide) (by decide) (by decide)
  have hnone : msecsSum (setHMS 0 0 0 0).mds (-2 ^ 31) = none := by decide
  rw [addMSecs_none hnone] at hrun
  cases hrun

end QTime

end KalavaPir.Common
