/-
  KalavaPir.Common.QDate — the days of the Gregorian calendar, `common/qdatetime.h`.

  A day is the number of its date.  The two conversions count the years from March
  on, so that the leap day is the last one of a year, and compute in `uint32_t`,
  which wraps around.
-/
import KalavaPir.Common.Int32
import Mathlib.Tactic.IntervalCases

namespace KalavaPir.Common

/-! ## §1. The class. -/

/-- The calendar begins in this year. -/
def FIRST_YEAR : ℤ := 1752

/-- The days of the months, from 1 on. -/
def monthDays : List ℤ := [0, 31, 28, 31, 30, 31, 30, 31, 31, 30, 31, 30, 31]

/-- A value converted to `uint32_t`. -/
def toUInt32 (x : ℤ) : ℤ := x % 2 ^ 32

/-- A value of `uint32_t` converted to `int32_t`. -/
def ofUInt32 (x : ℤ) : ℤ := if x < 2 ^ 31 then x else x - 2 ^ 32

/-- Year, month and day. -/
structure Date where
  y : ℤ
  m : ℤ
  d : ℤ
deriving DecidableEq

namespace QDate

/-- qdatetime.h:158. -/
def isLeapYear (y : ℤ) : Bool := (y.tmod 4 == 0 && y.tmod 100 != 0) || y.tmod 400 == 0

/-- qdatetime.h:149. -/
def isValid (date : Date) : Bool :=
  let dayOk (y : ℤ) : Bool :=
    (date.d > 0 && date.m > 0 && date.m ≤ 12) &&
      (date.d ≤ monthDays.getD date.m.toNat 0 || (date.d == 29 && date.m == 2 && isLeapYear y))
  if date.y ≥ 0 ∧ date.y ≤ 99 then dayOk (date.y + 1900)
  else if date.y < FIRST_YEAR ∨ date.y = FIRST_YEAR ∧ (date.m < 9 ∨ date.m = 9 ∧ date.d < 14) then false
  else dayOk date.y

/-- qdatetime.h:171. -/
def greg2jul (date : Date) : ℤ :=
  let y := if date.y ≤ 99 then date.y + 1900 else date.y
  let (m, y) := if date.m > 2 then (date.m - 3, y) else (date.m + 9, y - 1)
  let c := toUInt32 y / 100
  let ya := toUInt32 (y - 100 * c)
  toUInt32 (1721119 + date.d + toUInt32 (146097 * c) / 4 + toUInt32 (1461 * ya) / 4 + (153 * m + 2).tdiv 5)

/-- qdatetime.h:186; the product of the two `int32_t`s is the one that can overflow. -/
def jul2greg (jd : ℤ) : Option Date :=
  let j := toUInt32 (jd - 1721119)
  let y := toUInt32 (j * 4 - 1) / 146097
  (int32 (146097 * y)).bind fun days =>
    let j := toUInt32 (j * 4 - days - 1)
    let x := j / 4
    let j := toUInt32 (x * 4 + 3) / 1461
    let y := ofUInt32 (toUInt32 (100 * y + j))
    let x := toUInt32 (x * 4 + 3 - 1461 * j)
    let x := toUInt32 (x + 4) / 4
    let m := toUInt32 (5 * x - 3) / 153
    let x := toUInt32 (5 * x - 3 - 153 * m)
    let d := toUInt32 (x + 5) / 5
    if m < 10 then some { y := y, m := m + 3, d := d } else some { y := y + 1, m := m - 9, d := d }

end QDate

/-- qdatetime.h:29. -/
structure QDate where
  jd : ℤ

namespace QDate

/-- `QDate(y, m, d)`, by `setDate`. -/
def ofDate (date : Date) : QDate := if isValid date then ⟨greg2jul date⟩ else ⟨0⟩

/-- qdatetime.h:97; the number of the day is converted to `uint32_t`. -/
def getDate (d : QDate) : Option Date := jul2greg (toUInt32 d.jd)

/-- qdatetime.h:100. -/
def addDays (d : QDate) (days : ℤ) : QDate := ⟨d.jd + days⟩

/-! ## §2. The calendar. -/

/-- A leap year of the Gregorian calendar. -/
def Leap (y : ℤ) : Prop := 4 ∣ y ∧ (¬ 100 ∣ y ∨ 400 ∣ y)

instance (y : ℤ) : Decidable (Leap y) := inferInstanceAs (Decidable (_ ∧ _))

/-- Leap years counted. -/
def daysInMonth (y m : ℤ) : ℤ :=
  if m = 2 then if Leap y then 29 else 28
  else if m = 4 ∨ m = 6 ∨ m = 9 ∨ m = 11 then 30 else 31

/-- The day behind a date. -/
def nextDay (date : Date) : Date :=
  if date.d < daysInMonth date.y date.m then { date with d := date.d + 1 }
  else if date.m < 12 then { y := date.y, m := date.m + 1, d := 1 }
  else { y := date.y + 1, m := 1, d := 1 }

/-- The order of the calendar. -/
def Before (a b : Date) : Prop := a.y < b.y ∨ a.y = b.y ∧ (a.m < b.m ∨ a.m = b.m ∧ a.d < b.d)

/-- A date of the calendar in the years in which nothing wraps around. -/
structure IsDate (date : Date) : Prop where
  y_ge : 1752 ≤ date.y
  y_le : date.y ≤ 1000001
  m_ge : 1 ≤ date.m
  m_le : date.m ≤ 12
  d_ge : 1 ≤ date.d
  d_le : date.d ≤ daysInMonth date.y date.m

theorem isLeapYear_iff {y : ℤ} (hy : 0 ≤ y) : isLeapYear y = true ↔ Leap y := by
  unfold isLeapYear Leap
  rw [Int.tmod_eq_emod_of_nonneg hy, Int.tmod_eq_emod_of_nonneg hy, Int.tmod_eq_emod_of_nonneg hy]
  simp only [Bool.or_eq_true, Bool.and_eq_true, beq_iff_eq, bne_iff_ne, ne_eq]
  omega

/-! ## §3. Years from March on. -/

/-- A date as the conversions see it: the century, the year in it, and the month and
    the day of the month in a year that begins with March. -/
structure Shifted (date : Date) (c ya m : ℤ) : Prop where
  c_ge : 0 ≤ c
  c_le : c ≤ 10000
  ya_ge : 0 ≤ ya
  ya_le : ya ≤ 99
  m_ge : 0 ≤ m
  m_le : m ≤ 11
  year : date.y = 100 * c + ya + if m < 10 then 0 else 1
  month : date.m = if m < 10 then m + 3 else m - 9

variable {date : Date} {c ya m : ℤ}

theorem exists_shifted (h : IsDate date) : ∃ c ya m, Shifted date c ya m := by
  obtain ⟨hy, hy', hm, hm', -, -⟩ := h
  by_cases hearly : date.m ≤ 2
  · refine ⟨(date.y - 1) / 100, (date.y - 1) % 100, date.m + 9, ?_⟩
    refine ⟨by omega, by omega, by omega, by omega, by omega, by omega, ?_, ?_⟩
    · rw [if_neg (by omega)]
      omega
    · rw [if_neg (by omega)]
      omega
  refine ⟨date.y / 100, date.y % 100, date.m - 3, ?_⟩
  refine ⟨by omega, by omega, by omega, by omega, by omega, by omega, ?_, ?_⟩
  · rw [if_pos (by omega)]
    omega
  · rw [if_pos (by omega)]
    omega

/-- The days in front of a month, from March on. -/
def daysBefore (m : ℤ) : ℤ := (153 * m + 2) / 5

/-- The days in front of a year, from March 1st of the year 0 on. -/
def daysBeforeYear (c ya : ℤ) : ℤ := 36524 * c + c / 4 + (365 * ya + ya / 4)

theorem daysBeforeYear_eq (c ya : ℤ) : 146097 * c / 4 + 1461 * ya / 4 = daysBeforeYear c ya := by
  have hcentury : 146097 * c / 4 = 36524 * c + c / 4 := by omega
  have hyear : 1461 * ya / 4 = 365 * ya + ya / 4 := by omega
  rw [hcentury, hyear, daysBeforeYear]

theorem toUInt32_of_range {x : ℤ} (h : 0 ≤ x) (h' : x < 2 ^ 32) : toUInt32 x = x :=
  Int.emod_eq_of_lt h h'

/-- **THE NUMBER OF A DATE**, without a wrap-around. -/
theorem greg2jul_eq (h : Shifted date c ya m) (hdate : IsDate date) :
    greg2jul date = 1721119 + daysBeforeYear c ya + daysBefore m + date.d := by
  obtain ⟨hc, hc', hya, hya', hm, hm', hyear, hmonth⟩ := h
  have hd := hdate.d_ge
  have hd' : date.d ≤ 31 := by
    have hlast := hdate.d_le
    unfold daysInMonth at hlast
    split at hlast
    · split at hlast <;> omega
    · split at hlast <;> omega
  have hy := hdate.y_ge
  have hshift : (if date.m > 2 then (date.m - 3, date.y) else (date.m + 9, date.y - 1)) = (m, 100 * c + ya) := by
    by_cases hlate : m < 10
    · rw [if_pos hlate] at hyear hmonth
      rw [if_pos (by omega), hyear, hmonth]
      congr 1 <;> omega
    · rw [if_neg hlate] at hyear hmonth
      rw [if_neg (by omega), hyear, hmonth]
      congr 1 <;> omega
  rw [← daysBeforeYear_eq]
  unfold greg2jul daysBefore
  rw [if_neg (by omega)]
  dsimp only
  rw [hshift]
  dsimp only
  -- none of the products reaches 2³²
  have hcentury : toUInt32 (100 * c + ya) / 100 = c := by
    rw [toUInt32_of_range (by omega) (by omega)]
    omega
  rw [hcentury, toUInt32_of_range (x := 100 * c + ya - 100 * c) (by omega) (by omega),
    toUInt32_of_range (x := 146097 * c) (by omega) (by omega),
    toUInt32_of_range (x := 1461 * _) (by omega) (by omega),
    Int.tdiv_eq_ediv_of_nonneg (by omega)]
  rw [toUInt32_of_range (by omega) (by omega)]
  omega

/-- A day of a month, counted from March 1st on: its month has it, and only a leap year
    has a 366th day. -/
structure DayOfYear (c ya m d : ℤ) : Prop where
  d_ge : 1 ≤ d
  in_month : daysBefore m + d ≤ daysBefore (m + 1)
  in_year : daysBefore m + d ≤ 365 ∨ daysBefore m + d = 366 ∧ ya % 4 = 3 ∧ (ya ≠ 99 ∨ c % 4 = 3)

theorem Shifted.daysInMonth_eq (h : Shifted date c ya m) (hm : m ≤ 10) :
    daysInMonth date.y date.m = daysBefore (m + 1) - daysBefore m := by
  have hm' := h.m_ge
  have hmonth := h.month
  unfold daysInMonth daysBefore
  rw [if_neg (by split at hmonth <;> omega), hmonth]
  interval_cases m <;> decide

/-- February, which ends the year. -/
theorem Shifted.february (h : Shifted date c ya 11) :
    daysInMonth date.y date.m = if ya % 4 = 3 ∧ (ya ≠ 99 ∨ c % 4 = 3) then 29 else 28 := by
  have hy := h.year
  have hya := h.ya_ge
  have hya' := h.ya_le
  have hm := h.month
  have hfeb : date.m = 2 := hm
  have hleap : Leap date.y ↔ ya % 4 = 3 ∧ (ya ≠ 99 ∨ c % 4 = 3) := by
    unfold Leap
    omega
  unfold daysInMonth
  rw [if_pos hfeb]
  exact if_congr hleap rfl rfl

theorem Shifted.dayOfYear (h : Shifted date c ya m) (hdate : IsDate date) : DayOfYear c ya m date.d := by
  have hm' := h.m_le
  have hlast := hdate.d_le
  suffices hboth : daysBefore m + date.d ≤ daysBefore (m + 1) ∧ (daysBefore m + date.d ≤ 365 ∨
      daysBefore m + date.d = 366 ∧ ya % 4 = 3 ∧ (ya ≠ 99 ∨ c % 4 = 3)) from
    ⟨hdate.d_ge, hboth.1, hboth.2⟩
  by_cases hfeb : m = 11
  · -- February ends the year, and has its 366th day in a leap year
    subst hfeb
    rw [h.february] at hlast
    unfold daysBefore
    split at hlast <;> omega
  · rw [h.daysInMonth_eq (by omega)] at hlast
    unfold daysBefore at hlast ⊢
    omega

/-- **The century, the year in it and the day in the year** of a number of days. -/
theorem year_of_days {e : ℤ} (hya : 0 ≤ ya) (hya' : ya ≤ 99) (he : 1 ≤ e)
    (he' : e ≤ 365 ∨ e = 366 ∧ ya % 4 = 3 ∧ (ya ≠ 99 ∨ c % 4 = 3)) :
    ((daysBeforeYear c ya + e) * 4 - 1) / 146097 = c ∧
    (((daysBeforeYear c ya + e) * 4 - 146097 * c - 1) / 4 * 4 + 3) / 1461 = ya ∧
    (((daysBeforeYear c ya + e) * 4 - 146097 * c - 1) / 4 * 4 + 3 - 1461 * ya + 4) / 4 = e := by
  have hcentury : ((daysBeforeYear c ya + e) * 4 - 1) / 146097 = c := by
    unfold daysBeforeYear
    omega
  have hdays : ((daysBeforeYear c ya + e) * 4 - 146097 * c - 1) / 4 = 365 * ya + ya / 4 + e - 1 := by
    unfold daysBeforeYear
    omega
  refine ⟨hcentury, ?_, ?_⟩
  · omega
  · omega

/-- **The month and the day in it** of a day of the year. -/
theorem month_of_day {d : ℤ} (hm : 0 ≤ m) (hm' : m ≤ 11) (hd : 1 ≤ d)
    (hd' : daysBefore m + d ≤ daysBefore (m + 1)) :
    (5 * (daysBefore m + d) - 3) / 153 = m ∧ (5 * (daysBefore m + d) - 3 - 153 * m + 5) / 5 = d := by
  unfold daysBefore at hd' ⊢
  interval_cases m <;> omega

theorem daysBeforeYear_range (hc : 0 ≤ c) (hc' : c ≤ 10000) (hya : 0 ≤ ya) (hya' : ya ≤ 99) :
    146097 * c ≤ daysBeforeYear c ya * 4 + 3 ∧ daysBeforeYear c ya * 4 ≤ 146097 * c + 146097 ∧
      0 ≤ daysBeforeYear c ya ∧ daysBeforeYear c ya ≤ 365400000 := by
  unfold daysBeforeYear
  omega

/-- **THE ROUND TRIP.** -/
theorem jul2greg_eq (h : IsDate date) : jul2greg (greg2jul date) = some date := by
  obtain ⟨c, ya, m, hshift⟩ := exists_shifted h
  obtain ⟨hd, hmonth, hyear⟩ := hshift.dayOfYear h
  rw [greg2jul_eq hshift h]
  obtain ⟨hc, hc', hya, hya', hm, hm', hy, hmon⟩ := hshift
  have hfirst : 0 ≤ daysBefore m := by
    unfold daysBefore
    omega
  have hday := month_of_day hm hm' hd hmonth
  obtain ⟨hlow, hhigh, hrange, hrange'⟩ := daysBeforeYear_range hc hc' hya hya'
  generalize he : daysBefore m + date.d = e at hday hyear
  have he1 : 1 ≤ e := by omega
  obtain ⟨hc_eq, hya_eq, he_eq⟩ := year_of_days hya hya' he1 hyear
  have hsum : 1721119 + daysBeforeYear c ya + daysBefore m + date.d - 1721119 = daysBeforeYear c ya + e := by
    omega
  rw [jul2greg]
  dsimp only
  rw [hsum]
  generalize daysBeforeYear c ya = days at *
  clear he hmonth hyear hsum hfirst
  rw [toUInt32_of_range (x := days + e) (by omega) (by omega),
    toUInt32_of_range (x := (days + e) * 4 - 1) (by omega) (by omega), hc_eq,
    int32_of_le (by omega) (by unfold INT32_MAX; omega), Option.bind_some,
    toUInt32_of_range (x := (days + e) * 4 - 146097 * c - 1) (by omega) (by omega)]
  generalize ((days + e) * 4 - 146097 * c - 1) / 4 = x at *
  obtain ⟨hm_eq, hd_eq⟩ := hday
  have hyear : ofUInt32 (toUInt32 (100 * c + ya)) = 100 * c + ya := by
    rw [toUInt32_of_range (by omega) (by omega)]
    exact if_pos (by omega)
  rw [toUInt32_of_range (x := x * 4 + 3) (by omega) (by omega), hya_eq, hyear,
    toUInt32_of_range (x := x * 4 + 3 - 1461 * ya) (by omega) (by omega),
    toUInt32_of_range (x := x * 4 + 3 - 1461 * ya + 4) (by omega) (by omega), he_eq,
    toUInt32_of_range (x := 5 * e - 3) (by omega) (by omega), hm_eq,
    toUInt32_of_range (x := 5 * e - 3 - 153 * m) (by omega) (by omega),
    toUInt32_of_range (x := 5 * e - 3 - 153 * m + 5) (by omega) (by omega), hd_eq]
  -- from the year that begins with March back to the one of the calendar
  cases date
  dsimp only at hy hmon ⊢
  by_cases hlate : m < 10
  · rw [if_pos hlate] at hy hmon ⊢
    rw [hy, hmon, Int.add_zero]
  · rw [if_neg hlate] at hy hmon ⊢
    rw [hy, hmon]

/-! ## §4. The order of the days. -/

/-- **A year ends** before the next one, and before the next century. -/
theorem year_end {e : ℤ} (hya : 0 ≤ ya) (hya' : ya ≤ 99)
    (he' : e ≤ 365 ∨ e = 366 ∧ ya % 4 = 3 ∧ (ya ≠ 99 ∨ c % 4 = 3)) :
    daysBeforeYear c ya + e ≤ daysBeforeYear c (ya + 1) ∧
      daysBeforeYear c ya + e ≤ daysBeforeYear (c + 1) 0 := by
  unfold daysBeforeYear
  omega

theorem daysBeforeYear_mono {c' ya' : ℤ} (hya' : 0 ≤ ya') (h : c < c' ∨ c = c' ∧ ya < ya') :
    daysBeforeYear c (ya + 1) ≤ daysBeforeYear c' ya' ∨ daysBeforeYear (c + 1) 0 ≤ daysBeforeYear c' ya' := by
  unfold daysBeforeYear
  omega

variable {a b : Date}

theorem Shifted.order {c' ya' m' : ℤ} (h : Shifted a c ya m) (h' : Shifted b c' ya' m') (hab : Before a b) :
    (c < c' ∨ c = c' ∧ ya < ya') ∨ (c = c' ∧ ya = ya') ∧ (m < m' ∨ m = m' ∧ a.d < b.d) := by
  obtain ⟨-, -, hya, hya', hm, hm', hy, hmon⟩ := h
  obtain ⟨-, -, hya₁, hya₁', hm₁, hm₁', hy₁, hmon₁⟩ := h'
  unfold Before at hab
  split at hy <;> split at hy₁ <;> omega

/-- **Later dates have greater numbers.** -/
theorem greg2jul_lt (ha : IsDate a) (hb : IsDate b) (h : Before a b) :
    greg2jul a < greg2jul b := by
  obtain ⟨c, ya, m, hshift⟩ := exists_shifted ha
  obtain ⟨c', ya', m', hshift'⟩ := exists_shifted hb
  obtain ⟨-, hin, hyear⟩ := hshift.dayOfYear ha
  have hd' := hb.d_ge
  have hfirst : 0 ≤ daysBefore m' := by
    have hm' := hshift'.m_ge
    unfold daysBefore
    omega
  rw [greg2jul_eq hshift ha, greg2jul_eq hshift' hb]
  rcases hshift.order hshift' h with hearlier | ⟨⟨rfl, rfl⟩, hday⟩
  · -- a year ends in between
    have hend := year_end hshift.ya_ge hshift.ya_le hyear
    have hmono := daysBeforeYear_mono hshift'.ya_ge hearlier
    omega
  have hmono : m < m' → daysBefore (m + 1) ≤ daysBefore m' := by
    unfold daysBefore
    omega
  rcases hday with hlt | ⟨rfl, hlt⟩
  · have hle := hmono hlt
    omega
  · omega

/-! ## §5. The next day. -/

theorem Shifted.of_same (h : Shifted a c ya m) (hy : b.y = a.y) (hm : b.m = a.m) :
    Shifted b c ya m := by
  obtain ⟨hc, hc', hya, hya', hm₁, hm₂, hyear, hmonth⟩ := h
  exact ⟨hc, hc', hya, hya', hm₁, hm₂, hy.trans hyear, hm.trans hmonth⟩

theorem IsDate.nextDay (h : IsDate date) (hy : date.y ≤ 1000000) : IsDate (nextDay date) := by
  obtain ⟨hy₁, -, hm, hm', hd, hd'⟩ := h
  have hmonth : ∀ y m : ℤ, 1 ≤ daysInMonth y m := by
    intro y m
    unfold daysInMonth
    split
    · split <;> decide
    · split <;> decide
  unfold QDate.nextDay
  split
  · refine ⟨hy₁, by dsimp only; omega, hm, hm', by dsimp only; omega, ?_⟩
    show date.d + 1 ≤ daysInMonth date.y date.m
    omega
  · split
    · exact ⟨hy₁, by dsimp only; omega, by dsimp only; omega, by dsimp only; omega, le_rfl, hmonth _ _⟩
    · exact ⟨by dsimp only; omega, by dsimp only; omega, le_rfl, by dsimp only; omega, le_rfl, hmonth _ _⟩

/-- **A leap year is a day longer**: the end of February is the last day of its year. -/
theorem february_ends_year {d : ℤ} (hd : d = if ya % 4 = 3 ∧ (ya ≠ 99 ∨ c % 4 = 3) then 29 else 28) :
    daysBeforeYear c ya + daysBefore 11 + d =
      if ya = 99 then daysBeforeYear (c + 1) 0 else daysBeforeYear c (ya + 1) := by
  have h337 : daysBefore 11 = 337 := by decide
  unfold daysBeforeYear
  by_cases hlast : ya = 99
  · rw [if_pos hlast]
    split at hd <;> omega
  · rw [if_neg hlast]
    split at hd <;> omega

/-- **The next day has the next number.** -/
theorem greg2jul_nextDay (h : IsDate date) (hnext : IsDate (nextDay date)) :
    greg2jul (nextDay date) = greg2jul date + 1 := by
  obtain ⟨c, ya, m, hshift⟩ := exists_shifted h
  have hlast := h.d_le
  have hy := hshift.year
  have hmon := hshift.month
  have hm := hshift.m_ge
  have hm' := hshift.m_le
  rw [greg2jul_eq hshift h]
  by_cases hin : date.d < daysInMonth date.y date.m
  · -- inside a month
    have heq : nextDay date = { date with d := date.d + 1 } := if_pos hin
    have hshift' : Shifted (nextDay date) c ya m := by
      rw [heq]
      exact hshift.of_same rfl rfl
    rw [greg2jul_eq hshift' hnext, heq]
    dsimp only
    omega
  have hend : date.d = daysInMonth date.y date.m := by omega
  have hzero : daysBefore 0 = 0 := by decide
  by_cases hfeb : m = 11
  · -- the end of a year that begins with March, and maybe of a century
    subst hfeb
    have heq : nextDay date = { y := date.y, m := date.m + 1, d := 1 } := by
      unfold nextDay
      rw [if_neg hin, if_pos (by omega)]
    rw [hshift.february] at hend
    have hyear := february_ends_year hend
    have hya := hshift.ya_ge
    have hya' := hshift.ya_le
    have hc := hshift.c_ge
    have hle := hnext.y_le
    rw [heq] at hle ⊢
    rw [heq] at hnext
    by_cases hcentury : ya = 99
    · have hshift' : Shifted { y := date.y, m := date.m + 1, d := 1 } (c + 1) 0 0 := by
        refine ⟨by omega, by dsimp only at hle; omega, le_rfl, by decide, le_rfl, by decide, ?_, ?_⟩
        · show date.y = 100 * (c + 1) + 0 + 0
          omega
        · show date.m + 1 = 0 + 3
          omega
      rw [greg2jul_eq hshift' hnext, hzero]
      dsimp only
      omega
    have hshift' : Shifted { y := date.y, m := date.m + 1, d := 1 } c (ya + 1) 0 := by
      refine ⟨hc, hshift.c_le, by omega, by omega, le_rfl, by decide, ?_, ?_⟩
      · show date.y = 100 * c + (ya + 1) + 0
        omega
      · show date.m + 1 = 0 + 3
        omega
    rw [greg2jul_eq hshift' hnext, hzero]
    dsimp only
    omega
  · -- the end of another month
    rw [hshift.daysInMonth_eq (by omega)] at hend
    have hone : (nextDay date).d = 1 := by
      unfold nextDay
      rw [if_neg hin]
      split <;> rfl
    have hshift' : Shifted (nextDay date) c ya (m + 1) := by
      refine ⟨hshift.c_ge, hshift.c_le, hshift.ya_ge, hshift.ya_le, by omega, by omega, ?_, ?_⟩
      · unfold nextDay
        split <;> split at hmon <;> split at hy <;> split <;> dsimp only <;> omega
      · unfold nextDay
        split <;> split at hmon <;> split <;> dsimp only <;> omega
    rw [greg2jul_eq hshift' hnext, hone]
    omega

/-! ## §6. The dates that are accepted. -/

/-- A date that `isValid` accepts, up to the year 10^6. -/
structure Accepted (date : Date) : Prop where
  valid : isValid date = true
  y_ge : 1752 ≤ date.y
  y_le : date.y ≤ 10 ^ 6

/-- What `isValid` accepts are dates of the calendar. -/
theorem Accepted.isDate (h : Accepted date) : IsDate date := by
  obtain ⟨hvalid, hy, hy'⟩ := h
  unfold isValid at hvalid
  rw [if_neg (by omega)] at hvalid
  split at hvalid
  · cases hvalid
  simp only [Bool.and_eq_true, decide_eq_true_eq, Bool.or_eq_true, beq_iff_eq, gt_iff_lt] at hvalid
  obtain ⟨⟨⟨hd, hm⟩, hm'⟩, hday⟩ := hvalid
  refine ⟨hy, by omega, by omega, hm', by omega, ?_⟩
  rcases hday with hday | ⟨⟨hd29, hfeb⟩, hleap⟩
  · -- at most the days of the table, which has no leap years
    have htable : monthDays.getD date.m.toNat 0 ≤ daysInMonth date.y date.m := by
      unfold daysInMonth
      by_cases hfeb : date.m = 2
      · rw [if_pos hfeb, hfeb]
        split <;> decide
      · rw [if_neg hfeb]
        generalize date.m = m at hm hm' hfeb ⊢
        interval_cases m <;> decide
    exact le_trans hday htable
  · have hleap' := (isLeapYear_iff (by omega)).mp hleap
    unfold daysInMonth
    rw [if_pos hfeb, if_pos hleap', hd29]

theorem greg2jul_range (date : Date) : 0 ≤ greg2jul date ∧ greg2jul date < 2 ^ 32 := by
  exact ⟨Int.emod_nonneg _ (by decide), Int.emod_lt_of_pos _ (by decide)⟩

/-- **THE CALENDAR**: the conversions are inverse to each other and keep the order of
    the dates, and a day later is the next day. -/
theorem calendar_correct {a b : Date} (ha : Accepted a) (hb : Accepted b) :
    jul2greg (greg2jul a) = some a ∧ (Before a b → greg2jul a < greg2jul b) ∧
      ((ofDate a).addDays 1).getDate = some (nextDay a) := by
  have hdate := ha.isDate
  have hnext := hdate.nextDay ha.y_le
  refine ⟨jul2greg_eq hdate, greg2jul_lt hdate hb.isDate, ?_⟩
  obtain ⟨hlow, hhigh⟩ := greg2jul_range (nextDay a)
  show jul2greg (toUInt32 ((ofDate a).jd + 1)) = _
  have hjd : (ofDate a).jd + 1 = greg2jul (nextDay a) := by
    rw [greg2jul_nextDay hdate hnext, ofDate, if_pos ha.valid]
  rw [hjd, toUInt32_of_range hlow hhigh]
  exact jul2greg_eq hnext

/-- From the last day of February in a century that has a leap day to the next one that has not. -/
theorem calendar_2000_2100 :
    jul2greg (greg2jul ⟨2000, 2, 29⟩) = some ⟨2000, 2, 29⟩ ∧
      (Before ⟨2000, 2, 29⟩ ⟨2100, 2, 28⟩ → greg2jul ⟨2000, 2, 29⟩ < greg2jul ⟨2100, 2, 28⟩) ∧
      ((ofDate ⟨2000, 2, 29⟩).addDays 1).getDate = some (nextDay ⟨2000, 2, 29⟩) :=
  calendar_correct ⟨by decide, by decide, by decide⟩ ⟨by decide, by decide, by decide⟩

end QDate

end KalavaPir.Common
