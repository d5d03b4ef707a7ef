/-
  KalavaPir.Master.WorkerLists — the four lists of a `serviceInit` request that are
  well formed.

  A list is a number and segments between bars.  `getData` takes as many segments as
  the number says; behind the last one it starts over at the number itself, and it
  never says that there are too few.  The number has to be one that `atoi` can return,
  and the positions of the bars are kept in an `int32_t`: beyond it nothing is defined,
  and the result is `none` here.
-/
import KalavaPir.Common.Int32
import KalavaPir.Master.Reload
import Mathlib.Data.List.GetD

namespace KalavaPir.Master

open List Option

open KalavaPir.Common

/-! ## §1. The functions, where `atoi` is defined. -/

/-- The codes that are returned. -/
def PIR_OK : ℤ := 0
def PIR_ERR : ℤ := -1

/-- `end=s.find('|', beg)`, in an `int32_t`: `npos` is −1. -/
def findChecked (s : List Char) (beg : ℕ) : Option (Option ℕ) :=
  match find s '|' beg with
  | none => some none
  | some e => (int32 e).map fun _ => some e

/-- `beg=end+1`, in an `int32_t`. -/
def afterChecked (stop : Option ℕ) : Option ℕ := (int32 (after stop)).map fun _ => after stop

/-- The loop of `getData`. -/
def getFieldsChecked (s : List Char) : ℕ → ℕ → Option (List (List Char))
  | 0, _ => some []
  | n + 1, beg =>
    (findChecked s beg).bind fun stop =>
      (afterChecked stop).bind fun next =>
        (getFieldsChecked s n next).map (substr s beg stop :: ·)

/-- `getData` (pir.cpp:814), with all its numbers in an `int32_t`. -/
def getDataChecked (s : List Char) : Option (Option (ℤ × List (List Char))) :=
  (findChecked s 0).bind fun stop =>
    (int32 (atoi (substr s 0 stop))).bind fun bucketSize =>
      if bucketSize ≤ 0 then some none
      else
        (afterChecked stop).bind fun beg =>
          (getFieldsChecked s bucketSize.toNat beg).map fun vec => some (bucketSize, vec)

/-- `initWorkerInfo` (pir.cpp:834) with the vector that it appends to.  The first
    PIR_ERR ends it. -/
def initWorkerInfoTo (workspace tpldir method option : List Char) (workerInfoVec : List WorkerInfo) :
    Option (ℤ × List WorkerInfo) := do
  let some _ ← getDataChecked workspace | some (PIR_ERR, workerInfoVec)
  let some _ ← getDataChecked tpldir | some (PIR_ERR, workerInfoVec)
  let some _ ← getDataChecked method | some (PIR_ERR, workerInfoVec)
  let some _ ← getDataChecked option | some (PIR_ERR, workerInfoVec)
  match initWorkerInfo workspace tpldir method option with
  | none => some (PIR_ERR, workerInfoVec)
  | some vec => some (PIR_OK, workerInfoVec ++ vec)

/-! ## §2. Lists that are well formed. -/

/-- A list `n|x₁|…|xₖ`. -/
structure WorkerList where
  number : List Char
  segs : List (List Char)
  digits : ∀ c ∈ number, c.isDigit = true
  positive : 0 < Nat.ofDigitChars 10 number 0
  free : ∀ x ∈ segs, '|' ∉ x

namespace WorkerList

/-- The list as it is sent. -/
def string (l : WorkerList) : List Char := ['|'].intercalate (l.number :: l.segs)

/-- The number in front. -/
def n (l : WorkerList) : ℕ := Nat.ofDigitChars 10 l.number 0

/-- How many segments there are. -/
def k (l : WorkerList) : ℕ := l.segs.length

theorem number_ne_nil (l : WorkerList) : l.number ≠ [] := by
  intro hnil
  have hpos := l.positive
  rw [hnil] at hpos
  exact absurd hpos (by decide)

theorem segments_string (l : WorkerList) : segments l.string = l.number :: l.segs := by
  apply splitOn_intercalate
  · intro x hx
    rcases mem_cons.mp hx with rfl | hx
    · intro hbar
      exact absurd (l.digits '|' hbar) (by decide)
    · exact l.free x hx
  · exact cons_ne_nil _ _

theorem atoi_string (l : WorkerList) : atoi (substr l.string 0 (find l.string '|' 0)) = l.n := by
  have hstart : (l.string.drop 0).splitOn '|' = (segments l.string).drop 0 := rfl
  obtain ⟨hseg, -⟩ := take_segment (segments_pos l.string) hstart
  rw [hseg, segmentAt, l.segments_string, Nat.zero_mod, getD_cons_zero]
  exact atoi_digits l.number_ne_nil l.digits

/-! ## §3. What is taken from a list. -/

/-- Segments in a circle, the number among them. -/
def circle (l : WorkerList) : List (List Char) :=
  (List.range l.n).map fun i => (l.number :: l.segs).getD ((i + 1) % (l.k + 1)) []

/-- **`getData`** takes as many segments as the number says, from wherever it gets them. -/
theorem getData_string (l : WorkerList) : getData l.string = some ((l.n : ℤ), l.circle) := by
  have hzero : segmentAt l.string 0 = l.number := by
    rw [segmentAt, l.segments_string, Nat.zero_mod, getD_cons_zero]
  have hatoi : atoi (segmentAt l.string 0) = l.n := by
    rw [hzero]
    exact atoi_digits l.number_ne_nil l.digits
  have hpos : 0 < l.n := l.positive
  rw [getData_eq, taken, hatoi, if_neg (by omega), Int.toNat_natCast]
  congr 2
  apply map_congr_left
  intro i _
  rw [segmentAt, l.segments_string]
  rfl

/-- Enough segments are taken in their order. -/
theorem circle_of_le (l : WorkerList) (h : l.n ≤ l.k) : l.circle = l.segs.take l.n := by
  have hk : l.k = l.segs.length := rfl
  unfold circle
  apply ext_getElem
  · rw [length_map, length_range, length_take]
    omega
  · intro i hi hi'
    have hin : i < l.n := by
      rw [length_map, length_range] at hi
      exact hi
    have hmod : (i + 1) % (l.k + 1) = i + 1 := Nat.mod_eq_of_lt (by omega)
    rw [getElem_map, getElem_range, getElem_take, hmod, getD_cons_succ,
      getD_eq_getElem?_getD, getElem?_eq_getElem (by omega), getD_some]

/-! ### Where the bars stand. -/

/-- The place of the bar behind segment `j`, the number being segment 0. -/
def bar (l : WorkerList) (j : ℕ) : ℕ := (['|'].intercalate (l.number :: l.segs.take j)).length

/-- Where segment `j` begins. -/
def start (l : WorkerList) : ℕ → ℕ
  | 0 => 0
  | j + 1 => l.bar j + 1

/-- The place of the bar, and the one behind it, fit into an `int32_t`. -/
def BarFits (l : WorkerList) (j : ℕ) : Prop := j < l.k → (l.bar j : ℤ) < INT32_MAX

/-- The number fits, and so do the bars that `getData` comes to. -/
def Fits (l : WorkerList) : Prop := (l.n : ℤ) ≤ INT32_MAX ∧ ∀ j ≤ l.n, l.BarFits j

theorem intercalate_append {xs ys : List (List Char)} (hxs : xs ≠ []) (hys : ys ≠ []) :
    ['|'].intercalate (xs ++ ys) = ['|'].intercalate xs ++ '|' :: ['|'].intercalate ys := by
  induction xs with
  | nil => exact (hxs rfl).elim
  | cons x xs ih =>
    cases xs with
    | nil =>
      rw [singleton_append, intercalate_cons_of_ne_nil hys, intercalate_singleton,
        append_assoc]
      rfl
    | cons x' xs =>
      have hrest := ih (cons_ne_nil _ _)
      rw [cons_append, cons_append, intercalate_cons_cons,
        intercalate_cons_cons, ← cons_append, hrest, append_assoc,
        append_assoc, append_assoc]

variable {i : ℕ}

theorem string_eq (l : WorkerList) (hi : i < l.k) : l.string = ['|'].intercalate (l.number :: l.segs.take i)
      ++ '|' :: ['|'].intercalate (l.segs.drop i) := by
  have hsplit : l.number :: l.segs = (l.number :: l.segs.take i) ++ l.segs.drop i := by
    rw [cons_append, take_append_drop]
  have hrest : l.segs.drop i ≠ [] := by
    intro hnil
    have hlen := drop_eq_nil_iff.mp hnil
    unfold k at hi
    omega
  rw [← intercalate_append (cons_ne_nil _ _) hrest, ← hsplit]
  rfl

theorem drop_start (l : WorkerList) (hi : i ≤ l.k) :
    l.string.drop (l.start i) = ['|'].intercalate ((l.number :: l.segs).drop i) := by
  cases i with
  | zero => rfl
  | succ i =>
    have hbar : (['|'].intercalate (l.number :: l.segs.take i)).length = l.bar i := rfl
    rw [l.string_eq hi, drop_succ_cons]
    show List.drop (l.bar i + 1) _ = _
    rw [← drop_drop, drop_left' hbar]
    rfl

/-- The next bar. -/
theorem find_of_drop {s x : List Char} {rest : List (List Char)} {beg : ℕ}
    (h : s.drop beg = ['|'].intercalate (x :: rest)) (hx : '|' ∉ x) :
    find s '|' beg = if rest = [] then none else some (x.length + beg) := by
  have hfree : x.findIdx? (· == '|') = none := by
    rw [findIdx?_eq_none_iff]
    intro c hc
    rw [beq_eq_false_iff_ne]
    rintro rfl
    exact hx hc
  unfold find
  rw [h]
  by_cases hrest : rest = []
  · rw [if_pos hrest, hrest, intercalate_singleton, hfree]
    rfl
  · rw [if_neg hrest, intercalate_cons_of_ne_nil hrest, append_assoc,
      findIdx?_append, hfree]
    simp [findIdx?_cons]

/-- The bar behind a segment stands where the segment ends. -/
theorem bar_eq (l : WorkerList) (hi : i ≤ l.k) :
    l.bar i = ((l.number :: l.segs).getD i []).length + l.start i := by
  cases i with
  | zero =>
    show (['|'].intercalate [l.number]).length = l.number.length + 0
    rw [intercalate_singleton, Nat.add_zero]
  | succ i =>
    have hlt : i < l.segs.length := hi
    have htake : l.number :: l.segs.take (i + 1) = (l.number :: l.segs.take i) ++ [l.segs[i]] := by
      rw [cons_append, take_succ_eq_append_getElem hlt]
    have hseg : (l.number :: l.segs).getD (i + 1) [] = l.segs[i] := by
      rw [getD_cons_succ, getD_eq_getElem _ _ hlt]
    have hbar : l.bar (i + 1) = (['|'].intercalate (l.number :: l.segs.take (i + 1))).length := rfl
    rw [hbar, htake, intercalate_append (cons_ne_nil _ _) (cons_ne_nil _ _), hseg,
      length_append, intercalate_singleton, length_cons]
    show l.bar i + (l.segs[i].length + 1) = l.segs[i].length + (l.bar i + 1)
    omega

/-- **The bar that is found** from where a segment begins. -/
theorem find_start (l : WorkerList) (hi : i ≤ l.k) :
    find l.string '|' (l.start i) = if i < l.k then some (l.bar i) else none := by
  have hlen : i < (l.number :: l.segs).length := Nat.lt_succ_of_le hi
  have hcons : (l.number :: l.segs).drop i
      = (l.number :: l.segs).getD i [] :: (l.number :: l.segs).drop (i + 1) := by
    rw [drop_eq_getElem_cons hlen, getD_eq_getElem _ _ hlen]
  have hfree : '|' ∉ (l.number :: l.segs).getD i [] := by
    rw [getD_eq_getElem _ _ hlen]
    rcases mem_cons.mp (getElem_mem hlen) with hnumber | hseg
    · rw [hnumber]
      intro hbar
      exact absurd (l.digits '|' hbar) (by decide)
    · exact l.free _ hseg
  have hdrop := l.drop_start hi
  rw [hcons] at hdrop
  have hlast : (l.number :: l.segs).drop (i + 1) = [] ↔ ¬ i < l.k := by
    rw [drop_eq_nil_iff, length_cons]
    unfold k
    omega
  rw [find_of_drop hdrop hfree, ← l.bar_eq hi]
  by_cases hmore : i < l.k
  · rw [if_neg fun hnil => (hlast.mp hnil) hmore, if_pos hmore]
  · rw [if_pos (hlast.mpr hmore), if_neg hmore]

theorem after_find (l : WorkerList) (hi : i ≤ l.k) :
    after (find l.string '|' (l.start i)) = l.start ((i + 1) % (l.k + 1)) := by
  rw [l.find_start hi]
  by_cases hmore : i < l.k
  · rw [if_pos hmore, Nat.mod_eq_of_lt (by omega)]
    rfl
  · obtain rfl : i = l.k := by omega
    rw [if_neg hmore, Nat.mod_self]
    rfl

/-! ### Rounds. -/

theorem findChecked_of_fits (l : WorkerList) (hi : i ≤ l.k) (hfits : l.BarFits i) :
    findChecked l.string (l.start i) = some (find l.string '|' (l.start i))
      ∧ afterChecked (find l.string '|' (l.start i)) = some (l.start ((i + 1) % (l.k + 1))) := by
  unfold findChecked afterChecked
  rw [l.after_find hi, l.find_start hi]
  by_cases hmore : i < l.k
  · have hlt := hfits hmore
    rw [if_pos hmore, Nat.mod_eq_of_lt (by omega)]
    show (int32 (l.bar i)).map _ = _ ∧ (int32 ((l.bar i + 1 : ℕ) : ℤ)).map _ = _
    rw [int32_of_le (by omega) (by omega), int32_of_le (by omega) (by omega)]
    exact ⟨rfl, rfl⟩
  · obtain rfl : i = l.k := by omega
    rw [if_neg hmore, Nat.mod_self]
    exact ⟨rfl, rfl⟩

/-- A bar that does not fit: it has no value, or the place behind it has none. -/
theorem findChecked_of_not_fits (l : WorkerList) (hi : i ≤ l.k) (hfits : ¬ l.BarFits i) :
    findChecked l.string (l.start i) = none
      ∨ findChecked l.string (l.start i) = some (some (l.bar i))
        ∧ afterChecked (some (l.bar i)) = none := by
  unfold BarFits at hfits
  rw [Classical.not_imp, not_lt] at hfits
  obtain ⟨hmore, hbig⟩ := hfits
  unfold findChecked afterChecked
  rw [l.find_start hi, if_pos hmore]
  show (int32 (l.bar i)).map _ = _ ∨ (int32 (l.bar i)).map _ = _ ∧ _
  by_cases hgt : INT32_MAX < (l.bar i : ℤ)
  · rw [int32_of_gt hgt]
    exact Or.inl rfl
  have hnext : INT32_MAX < ((l.bar i + 1 : ℕ) : ℤ) := by omega
  rw [int32_of_le (by omega) (by omega)]
  refine Or.inr ⟨rfl, ?_⟩
  show (int32 ((l.bar i + 1 : ℕ) : ℤ)).map _ = _
  rw [int32_of_gt hnext]
  rfl

/-- The bars that `m` rounds come to, from segment `i` on. -/
def RoundsFit (l : WorkerList) (m i : ℕ) : Prop := ∀ r < m, l.BarFits ((i + r) % (l.k + 1))

theorem roundsFit_succ (l : WorkerList) (m : ℕ) (hi : i ≤ l.k) :
    l.RoundsFit (m + 1) i ↔ l.BarFits i ∧ l.RoundsFit m ((i + 1) % (l.k + 1)) := by
  have hsame : i % (l.k + 1) = i := Nat.mod_eq_of_lt (by omega)
  have hshift : ∀ r, ((i + 1) % (l.k + 1) + r) % (l.k + 1) = (i + (r + 1)) % (l.k + 1) := by
    intro r
    rw [Nat.mod_add_mod, Nat.add_right_comm, Nat.add_assoc]
  constructor
  · intro h
    refine ⟨?_, fun r hr => ?_⟩
    · have hfirst := h 0 (Nat.succ_pos m)
      rwa [Nat.add_zero, hsame] at hfirst
    · rw [hshift]
      exact h (r + 1) (Nat.succ_lt_succ hr)
  · rintro ⟨hfirst, hrest⟩ r hr
    cases r with
    | zero =>
      rw [Nat.add_zero, hsame]
      exact hfirst
    | succ r =>
      rw [← hshift]
      exact hrest r (Nat.lt_of_succ_lt_succ hr)

/-- **The rounds**, if the bars fit that they come to. -/
theorem getFieldsChecked_string (l : WorkerList) (m : ℕ) : ∀ {i}, i ≤ l.k → (l.RoundsFit m i →
      getFieldsChecked l.string m (l.start i) = some (getFields l.string m (l.start i))) ∧
    (¬ l.RoundsFit m i → getFieldsChecked l.string m (l.start i) = none) := by
  induction m with
  | zero =>
    intro i _
    exact ⟨fun _ => rfl, fun hno => (hno fun r hr => absurd hr (Nat.not_lt_zero r)).elim⟩
  | succ m ih =>
    intro i hi
    have hnext : (i + 1) % (l.k + 1) ≤ l.k := Nat.le_of_lt_succ (Nat.mod_lt _ (Nat.succ_pos _))
    obtain ⟨hgoes, hfails⟩ := ih hnext
    rw [l.roundsFit_succ m hi]
    unfold getFieldsChecked getFields
    simp only [l.after_find hi]
    by_cases hbar : l.BarFits i
    · obtain ⟨hfind, hafter⟩ := l.findChecked_of_fits hi hbar
      rw [hfind, bind_some, hafter, bind_some, and_iff_right hbar]
      constructor
      · intro hrest
        rw [hgoes hrest]
        rfl
      · intro hrest
        rw [hfails hrest]
        rfl
    · refine ⟨fun h => absurd h.1 hbar, fun _ => ?_⟩
      rcases l.findChecked_of_not_fits hi hbar with hfind | ⟨hfind, hafter⟩
      · rw [hfind]
        rfl
      · rw [hfind, bind_some, hafter]
        rfl

theorem barFits_iff (l : WorkerList) : (∀ j ≤ l.n, l.BarFits j) ↔
    l.BarFits 0 ∧ l.RoundsFit l.n ((0 + 1) % (l.k + 1)) := by
  rw [← l.roundsFit_succ l.n (Nat.zero_le _)]
  constructor
  · intro h r hr
    rw [Nat.zero_add]
    exact h _ (le_trans (Nat.mod_le _ _) (Nat.le_of_lt_succ hr))
  · intro h j hj hk
    have hround := h j (Nat.lt_succ_of_le hj)
    rw [Nat.zero_add, Nat.mod_eq_of_lt (by omega)] at hround
    exact hround hk

/-- **What `getData` makes of a list** whose number and bars fit. -/
theorem getDataChecked_string (l : WorkerList) :
    (l.Fits → getDataChecked l.string = some (some ((l.n : ℤ), l.circle))) ∧
    (¬ l.Fits → getDataChecked l.string = none) := by
  have hpos : 0 < l.n := l.positive
  have hdata := l.getData_string
  have hnext : (0 + 1) % (l.k + 1) ≤ l.k := Nat.le_of_lt_succ (Nat.mod_lt _ (Nat.succ_pos _))
  have hafter := l.after_find (Nat.zero_le _)
  obtain ⟨hgoes, hfails⟩ := l.getFieldsChecked_string l.n hnext
  rw [show l.start 0 = 0 from rfl] at hafter
  unfold getData at hdata
  dsimp only at hdata
  rw [l.atoi_string, if_neg (by omega), hafter, Int.toNat_natCast, some_inj,
    Prod.mk.injEq] at hdata
  unfold Fits
  rw [barFits_iff]
  unfold getDataChecked
  by_cases hbar : l.BarFits 0
  · obtain ⟨hfind, hplace⟩ := l.findChecked_of_fits (Nat.zero_le _) hbar
    rw [show l.start 0 = 0 from rfl] at hfind hplace
    rw [hfind, bind_some, l.atoi_string, and_iff_right hbar]
    by_cases hn : (l.n : ℤ) ≤ INT32_MAX
    · rw [int32_of_le (Int.natCast_nonneg _) hn, bind_some, if_neg (by omega), hplace,
        bind_some, Int.toNat_natCast, and_iff_right hn]
      constructor
      · intro hrest
        rw [hgoes hrest, hdata.2]
        rfl
      · intro hrest
        rw [hfails hrest]
        rfl
    · rw [int32_of_gt (not_le.mp hn)]
      exact ⟨fun h => absurd h.1 hn, fun _ => rfl⟩
  refine ⟨fun h => absurd h.2.1 hbar, fun _ => ?_⟩
  rcases l.findChecked_of_not_fits (Nat.zero_le _) hbar with hfind | ⟨hfind, hplace⟩
  · rw [show l.start 0 = 0 from rfl] at hfind
    rw [hfind]
    rfl
  -- the number is read, if it fits, before the place behind the bar is needed
  have hmore : 0 < l.k := (Classical.not_imp.mp hbar).1
  have hfound := l.find_start (Nat.zero_le _)
  have hatoi := l.atoi_string
  rw [if_pos hmore, show l.start 0 = 0 from rfl] at hfound
  rw [show l.start 0 = 0 from rfl] at hfind
  rw [hfound] at hatoi
  rw [hfind, bind_some, hatoi]
  by_cases hn : (l.n : ℤ) ≤ INT32_MAX
  · rw [int32_of_le (Int.natCast_nonneg _) hn, bind_some, if_neg (by omega), hplace]
    rfl
  · rw [int32_of_gt (not_le.mp hn)]
    rfl

/-! ## §4. Requests. -/

theorem length_circle (l : WorkerList) : l.circle.length = l.n := by
  unfold circle
  rw [length_map, length_range]

/-- All numbers are the same. -/
def SameNumber (a b c d : WorkerList) : Prop := a.n = d.n ∧ b.n = d.n ∧ c.n = d.n

/-- The numbers decide whether `initWorkerInfo` accepts a request. -/
theorem initWorkerInfo_isSome_iff (a b c d : WorkerList) :
    (∃ vec, initWorkerInfo a.string b.string c.string d.string = some vec) ↔ SameNumber a b c d := by
  unfold initWorkerInfo SameNumber
  simp only [getData_string, bind_eq_bind, bind_some, length_circle]
  split
  next hdiffer =>
    constructor
    · rintro ⟨vec, hvec⟩
      cases hvec
    · rintro ⟨ha, hb, hc⟩
      omega
  next hsame =>
    refine ⟨fun _ => ?_, fun _ => ⟨_, rfl⟩⟩
    omega

variable {a b c d : WorkerList}

/-- **A request** is accepted if the numbers are the same, however many segments there are. -/
theorem initWorkerInfoTo_eq (ha : a.Fits) (hb : b.Fits) (hc : c.Fits) (hd : d.Fits)
    (workerInfoVec : List WorkerInfo) :
    (SameNumber a b c d ∧ ∃ vec, initWorkerInfoTo a.string b.string c.string d.string workerInfoVec =
      some (PIR_OK, workerInfoVec ++ vec)) ∨
    ¬ SameNumber a b c d ∧ initWorkerInfoTo a.string b.string c.string d.string workerInfoVec =
      some (PIR_ERR, workerInfoVec) := by
  have hiff := initWorkerInfo_isSome_iff a b c d
  unfold initWorkerInfoTo
  rw [a.getDataChecked_string.1 ha, b.getDataChecked_string.1 hb, c.getDataChecked_string.1 hc,
    d.getDataChecked_string.1 hd]
  cases hinit : initWorkerInfo a.string b.string c.string d.string with
  | none =>
    refine Or.inr ⟨fun hsame => ?_, rfl⟩
    obtain ⟨vec, hvec⟩ := hiff.mpr hsame
    rw [hinit] at hvec
    cases hvec
  | some vec => exact Or.inl ⟨hiff.mp ⟨vec, hinit⟩, vec, rfl⟩

/-- A list that does not fit has no defined result. -/
theorem initWorkerInfoTo_none (h : ¬ (a.Fits ∧ b.Fits ∧ c.Fits ∧ d.Fits)) (workerInfoVec : List WorkerInfo) :
    initWorkerInfoTo a.string b.string c.string d.string workerInfoVec = none := by
  unfold initWorkerInfoTo
  by_cases ha : a.Fits
  · rw [a.getDataChecked_string.1 ha]
    by_cases hb : b.Fits
    · rw [b.getDataChecked_string.1 hb]
      by_cases hc : c.Fits
      · rw [c.getDataChecked_string.1 hc, d.getDataChecked_string.2 fun hd => h ⟨ha, hb, hc, hd⟩]
        rfl
      · rw [c.getDataChecked_string.2 hc]
        rfl
    · rw [b.getDataChecked_string.2 hb]
      rfl
  · rw [a.getDataChecked_string.2 ha]
    rfl

/-! ## §5. When a short list is noticed. -/

/-- What `getData` should say of a list: its first segments, or that there are too few. -/
def GetDataMeets (l : WorkerList) : Prop :=
  (l.n ≤ l.k → getDataChecked l.string = some (some ((l.n : ℤ), l.segs.take l.n))) ∧
    (l.k < l.n → getDataChecked l.string = some none)

/-- What `initWorkerInfo` should say of four lists: it accepts them exactly if the numbers
    are the same and none of them is short, and otherwise leaves the vector alone. -/
def InitWorkerInfoMeets (a b c d : WorkerList) (workerInfoVec : List WorkerInfo) : Prop :=
  ∃ r, initWorkerInfoTo a.string b.string c.string d.string workerInfoVec = some r ∧
    (r.1 = PIR_OK ↔ SameNumber a b c d ∧ d.n ≤ a.k ∧ d.n ≤ b.k ∧ d.n ≤ c.k ∧ d.n ≤ d.k) ∧
    (r.1 = PIR_ERR → r.2 = workerInfoVec)

theorem getData_meets_iff (l : WorkerList) : GetDataMeets l ↔ l.n ≤ l.k ∧ l.Fits := by
  unfold GetDataMeets
  by_cases hfits : l.Fits
  · rw [l.getDataChecked_string.1 hfits, and_iff_left hfits]
    constructor
    · rintro ⟨-, hshort⟩
      by_contra hless
      cases Option.some.inj (hshort (not_le.mp hless))
    · intro hle
      rw [l.circle_of_le hle]
      exact ⟨fun _ => rfl, fun hless => by omega⟩
  · rw [l.getDataChecked_string.2 hfits]
    refine iff_of_false ?_ fun h => hfits h.2
    rintro ⟨hlong, hshort⟩
    rcases Nat.lt_or_ge l.k l.n with hless | hle
    · cases hshort hless
    · cases hlong hle

/-- **WHEN A SHORT LIST IS NOTICED**: `getData` does right only on lists that are not short,
    and `initWorkerInfo` on lists whose numbers differ, or of which none is short; all of it
    if the numbers and the bars fit. -/
theorem workerLists_meet_iff (a b c d : WorkerList) (workerInfoVec : List WorkerInfo) :
    (GetDataMeets a ↔ a.n ≤ a.k ∧ a.Fits) ∧
    (InitWorkerInfoMeets a b c d workerInfoVec ↔
      (a.Fits ∧ b.Fits ∧ c.Fits ∧ d.Fits) ∧
        (SameNumber a b c d → d.n ≤ a.k ∧ d.n ≤ b.k ∧ d.n ≤ c.k ∧ d.n ≤ d.k)) := by
  refine ⟨getData_meets_iff a, ?_⟩
  have hcodes : PIR_OK ≠ PIR_ERR := by decide
  constructor
  · rintro ⟨r, hrun, hok, -⟩
    have hfits : a.Fits ∧ b.Fits ∧ c.Fits ∧ d.Fits := by
      by_contra hbig
      rw [initWorkerInfoTo_none hbig] at hrun
      cases hrun
    obtain ⟨ha, hb, hc, hd⟩ := hfits
    refine ⟨⟨ha, hb, hc, hd⟩, fun hsame => ?_⟩
    rcases initWorkerInfoTo_eq ha hb hc hd workerInfoVec with ⟨-, vec, hvec⟩ | ⟨hdiffer, -⟩
    · rw [hvec, Option.some_inj] at hrun
      rw [← hrun] at hok
      exact (hok.mp rfl).2
    · exact absurd hsame hdiffer
  · rintro ⟨⟨ha, hb, hc, hd⟩, hlong⟩
    rcases initWorkerInfoTo_eq ha hb hc hd workerInfoVec with ⟨hsame, vec, hvec⟩ | ⟨hdiffer, herr⟩
    · exact ⟨_, hvec, ⟨fun _ => ⟨hsame, hlong hsame⟩, fun _ => rfl⟩, fun herr => absurd herr hcodes⟩
    · exact ⟨_, herr, ⟨fun hok => absurd hok.symm hcodes, fun h => absurd h.1 hdiffer⟩, fun _ => rfl⟩

/-- `2|x`. -/
def shortList : WorkerList where
  number := ['2']
  segs := [['x']]
  digits := all_eq_true.mp (by decide)
  positive := by decide
  free := by decide

/-- **`2|x`** gives two segments, the second of which is the number. -/
theorem workerLists_short : ¬ ∀ (a b c d : WorkerList) (workerInfoVec : List WorkerInfo),
    GetDataMeets a ∧ InitWorkerInfoMeets a b c d workerInfoVec := by
  intro h
  obtain ⟨⟨-, hshort⟩, -⟩ := h shortList shortList shortList shortList []
  have htwo : getDataChecked shortList.string = some (some (2, [['x'], ['2']])) := by decide
  rw [htwo] at hshort
  exact absurd (hshort (by decide)) (by decide)

end WorkerList

end KalavaPir.Master
