/-
  KalavaPir.Framework.Occurrences — a pattern in a text.
-/
import Mathlib.Data.List.Infix
import Mathlib.Data.Nat.Find

namespace KalavaPir.Framework

open List

variable {α : Type} [DecidableEq α]

/-! ## §1. Where a pattern occurs. -/

/-- The first place at which the pattern occurs. -/
structure FirstAt (pat src : List α) (p : ℕ) : Prop where
  occurs : pat <+: src.drop p
  first : ∀ q < p, ¬ pat <+: src.drop q

/-- The last place at which it occurs. -/
structure LastAt (pat src : List α) (p : ℕ) : Prop where
  occurs : pat <+: src.drop p
  last : ∀ q, pat <+: src.drop q → q ≤ p

variable {src : List α} {p : ℕ}

omit [DecidableEq α] in
theorem length_of_prefix_drop {pat : List α} (h : pat <+: src.drop p) :
    pat.length ≤ src.length - p := by
  have hle := h.length_le
  rw [length_drop] at hle
  exact hle

omit [DecidableEq α] in
theorem prefix_drop_iff {pat : List α} :
    pat <+: src.drop p ↔ ∀ t < pat.length, src[p + t]? = pat[t]? := by
  rw [prefix_iff_getElem?]
  constructor
  · intro h t ht
    rw [← getElem?_drop, h t ht, getElem?_eq_getElem ht]
  · intro h t ht
    rw [getElem?_drop, h t ht, getElem?_eq_getElem ht]

omit [DecidableEq α] in
theorem add_length_le_of_occurs {pat : List α} (hpat : pat ≠ []) (h : pat <+: src.drop p) :
    p + pat.length ≤ src.length := by
  have hfit := length_of_prefix_drop h
  have hpos := length_pos_of_ne_nil hpat
  omega

/-- **A pattern that occurs** occurs for a last time. -/
theorem exists_lastAt {pat : List α} (hpat : pat ≠ []) (h : pat <+: src.drop p) :
    ∃ q, LastAt pat src q := by
  have hbound : ∀ q, pat <+: src.drop q → q ≤ src.length := by
    intro q hq
    have hle := add_length_le_of_occurs hpat hq
    omega
  exact ⟨Nat.findGreatest (fun q => pat <+: src.drop q) src.length,
    Nat.findGreatest_spec (P := fun q => pat <+: src.drop q) (hbound p h) h,
    fun q hq => Nat.le_findGreatest (hbound q hq) hq⟩

omit [DecidableEq α] in
/-- **Nothing at `i`**: what a search finds among the `k` places behind is what it
    finds from `i` on. -/
theorem search_step {pat : List α} {found : ℕ → Prop} {missing : Prop} {i k : ℕ}
    (hnot : ¬ pat <+: src.drop i)
    (h : (∃ q, found q ∧ pat <+: src.drop q ∧ ∀ r, i + 1 ≤ r → r < q → ¬ pat <+: src.drop r) ∨ missing ∧ ∀ r, i + 1 ≤ r → r < i + 1 + k → ¬ pat <+: src.drop r) :
    (∃ q, found q ∧ pat <+: src.drop q ∧ ∀ r, i ≤ r → r < q → ¬ pat <+: src.drop r) ∨
      missing ∧ ∀ r, i ≤ r → r < i + (k + 1) → ¬ pat <+: src.drop r := by
  have hmore : ∀ r, i ≤ r → r ≠ i → i + 1 ≤ r := by omega
  obtain ⟨q, hq, hoccurs, hfirst⟩ | ⟨hnone, hno⟩ := h
  · refine Or.inl ⟨q, hq, hoccurs, fun r hr hrq => ?_⟩
    by_cases hri : r = i
    · rwa [hri]
    · exact hfirst r (hmore r hr hri) hrq
  refine Or.inr ⟨hnone, fun r hr hrk => ?_⟩
  by_cases hri : r = i
  · rwa [hri]
  · exact hno r (hmore r hr hri) (by omega)

/-! ## §2. Replacing a pattern. -/

/-- All leftmost occurrences of `pat` that do not overlap, replaced by `to`. -/
def replaceAll (pat to_ src : List α) : List α :=
  if pat ≠ [] ∧ pat <+: src then to_ ++ replaceAll pat to_ (src.drop pat.length)
  else
    match src with
    | [] => []
    | c :: cs => c :: replaceAll pat to_ cs
termination_by src.length
decreasing_by
  · obtain ⟨hne, hprefix⟩ : pat ≠ [] ∧ pat <+: src := by assumption
    have hpos := length_pos_of_ne_nil hne
    have hle := hprefix.length_le
    rw [length_drop]
    omega
  · simp

variable {pat to_ : List α}

/-- **Up to the first occurrence** nothing changes. -/
theorem replaceAll_first (hne : pat ≠ []) (p : ℕ) : ∀ {src : List α}, FirstAt pat src p →
    replaceAll pat to_ src = src.take p ++ to_ ++ replaceAll pat to_ (src.drop (p + pat.length)) := by
  induction p with
  | zero =>
    intro src h
    have hhere : pat <+: src := h.occurs
    rw [replaceAll.eq_def, if_pos ⟨hne, hhere⟩, Nat.zero_add]
    rfl
  | succ p ih =>
    intro src h
    have hnot : ¬ (pat ≠ [] ∧ pat <+: src) := fun hhere => h.first 0 (Nat.succ_pos p) hhere.2
    cases src with
    | nil => exact absurd (prefix_nil.mp h.occurs) hne
    | cons c cs =>
      have htail : FirstAt pat cs p :=
        ⟨h.occurs, fun q hq => h.first (q + 1) (Nat.succ_lt_succ hq)⟩
      rw [replaceAll, if_neg hnot]
      show c :: replaceAll pat to_ cs = _
      rw [ih htail, Nat.add_right_comm]
      rfl

/-- **Without an occurrence** nothing changes at all. -/
theorem replaceAll_none (h : ∀ q, ¬ pat <+: src.drop q) : replaceAll pat to_ src = src := by
  induction src with
  | nil =>
    rw [replaceAll, if_neg fun hhere => h 0 hhere.2]
  | cons c cs ih =>
    rw [replaceAll, if_neg fun hhere => h 0 hhere.2]
    show c :: replaceAll pat to_ cs = _
    rw [ih fun q => h (q + 1)]

/-! ## §3. Occurrences that stand apart. -/

/-- What holds wherever a scan stands that does not look at the character behind
    an occurrence. -/
def AlongScan (pat : List α) (P : List α → Prop) : List α → Prop
  | [] => True
  | c :: cs => P (c :: cs) ∧ AlongScan pat P (if pat <+: c :: cs then cs.drop pat.length else cs)
termination_by src => src.length
decreasing_by
  split
  · rw [length_drop, length_cons]
    omega
  · exact Nat.lt_succ_self _

/-- The occurrences of such a scan replaced, and the characters behind them kept. -/
def replaceApart (pat to_ : List α) : List α → List α
  | [] => []
  | c :: cs =>
    if pat <+: c :: cs then
      to_ ++ ((c :: cs).drop pat.length).take 1 ++ replaceApart pat to_ (cs.drop pat.length)
    else c :: replaceApart pat to_ cs
termination_by src => src.length
decreasing_by
  · rw [length_drop, length_cons]
    omega
  · exact Nat.lt_succ_self _

/-- A pattern that can occur a second time before its first occurrence ends. -/
def Overlaps (pat : List α) : Prop := ∃ k, 0 < k ∧ k < pat.length ∧ pat.drop k <+: pat

/-- No occurrence directly follows one that the scan replaces. -/
def NoneAdjacent (pat : List α) : List α → Prop :=
  AlongScan pat fun s => pat <+: s → ¬ pat <+: s.drop pat.length

section Apart

variable {P : List α → Prop} {r src : List α} {k : ℕ}

theorem along_found (h : pat <+: src) (hne : src ≠ []) :
    AlongScan pat P src ↔ P src ∧ AlongScan pat P (src.drop (pat.length + 1)) := by
  cases src with
  | nil => exact absurd rfl hne
  | cons c cs =>
    rw [AlongScan, if_pos h]
    rfl

variable {c : α} {cs : List α}

theorem along_missed (h : ¬ pat <+: c :: cs) :
    AlongScan pat P (c :: cs) ↔ P (c :: cs) ∧ AlongScan pat P cs := by
  rw [AlongScan, if_neg h]

theorem replaceApart_found (h : pat <+: src) (hne : src ≠ []) : replaceApart pat to_ src =
    to_ ++ (src.drop pat.length).take 1 ++ replaceApart pat to_ (src.drop (pat.length + 1)) := by
  cases src with
  | nil => exact absurd rfl hne
  | cons c cs =>
    rw [replaceApart, if_pos h]
    rfl

theorem replaceApart_missed (h : ¬ pat <+: c :: cs) :
    replaceApart pat to_ (c :: cs) = c :: replaceApart pat to_ cs := by
  rw [replaceApart, if_neg h]

theorem replaceAll_found (hne : pat ≠ []) (h : pat <+: src) :
    replaceAll pat to_ src = to_ ++ replaceAll pat to_ (src.drop pat.length) := by
  rw [replaceAll.eq_def, if_pos ⟨hne, h⟩]

theorem replaceAll_missed (h : ¬ pat <+: c :: cs) :
    replaceAll pat to_ (c :: cs) = c :: replaceAll pat to_ cs := by
  rw [replaceAll, if_neg fun hhere => h hhere.2]

theorem replaceApart_keep (k : ℕ) : ∀ {src : List α}, (∀ q < k, ¬ pat <+: src.drop q) →
    replaceApart pat to_ src = src.take k ++ replaceApart pat to_ (src.drop k) := by
  induction k with
  | zero => exact fun _ => rfl
  | succ k ih =>
    intro src h
    cases src with
    | nil => rfl
    | cons c cs =>
      rw [replaceApart_missed (h 0 (Nat.succ_pos k)),
        ih fun q hq => h (q + 1) (Nat.succ_lt_succ hq)]
      rfl

theorem replaceAll_cons (hnot : ¬ pat <+: r) :
    replaceAll pat to_ r = r.take 1 ++ replaceAll pat to_ (r.drop 1) := by
  cases r with
  | nil =>
    have hnil : replaceAll pat to_ [] = [] := by rw [replaceAll, if_neg fun hhere => hnot hhere.2]
    show replaceAll pat to_ [] = [] ++ replaceAll pat to_ []
    rw [hnil, append_nil]
  | cons c cs => exact replaceAll_missed hnot

theorem replaceAll_self (src : List α) : replaceAll pat pat src = src := by
  induction src using replaceAll.induct pat with
  | case1 src h ih =>
    rw [replaceAll_found h.1 h.2, ih]
    exact (prefix_iff_eq_append.mp h.2)
  | case2 h => rw [replaceAll, if_neg h]
  | case3 c cs h ih =>
    rw [replaceAll, if_neg h]
    show c :: replaceAll pat pat cs = _
    rw [ih]

theorem length_replaceAll_le_self (hne : pat ≠ []) (hlen : to_.length ≤ pat.length) (src : List α) :
    (replaceAll pat to_ src).length ≤ src.length := by
  induction src using replaceAll.induct pat with
  | case1 src h ih =>
    rw [replaceAll_found hne h.2, length_append]
    rw [length_drop] at ih
    have hle := h.2.length_le
    omega
  | case2 h => rw [replaceAll, if_neg h]
  | case3 c cs h ih =>
    rw [replaceAll, if_neg h]
    exact Nat.succ_le_succ ih

theorem replaceApart_self (src : List α) : replaceApart pat pat src = src := by
  induction src using replaceApart.induct pat with
  | case1 => rw [replaceApart]
  | case2 c cs h ih =>
    rw [replaceApart, if_pos h, ih, append_assoc]
    have hrest : ((c :: cs).drop pat.length).take 1 ++ cs.drop pat.length = (c :: cs).drop pat.length := by
      show _ ++ ((c :: cs).drop (pat.length + 1)) = _
      rw [← drop_drop]
      exact take_append_drop 1 _
    rw [hrest]
    exact prefix_iff_eq_append.mp h
  | case3 c cs h ih => rw [replaceApart, if_neg h, ih]

/-! ### Occurrences that do not overlap. -/

omit [DecidableEq α] in
theorem not_prefix_of_not_overlaps (hapart : ¬ Overlaps pat) (h : pat <+: r) (hk : 0 < k)
    (hlt : k < pat.length) : ¬ pat <+: r.drop k := by
  intro hagain
  apply hapart
  refine ⟨k, hk, hlt, ?_⟩
  -- both the pattern and its rest from `k` on are what follows at `k`
  have hrest : pat.drop k <+: r.drop k := h.drop k
  apply prefix_of_prefix_length_le hrest hagain
  rw [length_drop]
  omega

theorem replaceApart_adjacent (hapart : ¬ Overlaps pat) (hne : pat ≠ []) (h : pat <+: r) :
    r.take 1 ++ replaceApart pat to_ (r.drop 1) = pat ++ replaceApart pat to_ (r.drop pat.length) := by
  have hpos := length_pos_of_ne_nil hne
  have hnone : ∀ q < pat.length - 1, ¬ pat <+: (r.drop 1).drop q := by
    intro q hq
    rw [drop_drop]
    exact not_prefix_of_not_overlaps hapart h (by omega) (by omega)
  rw [replaceApart_keep (pat.length - 1) hnone, ← append_assoc, drop_drop,
    ← take_add, Nat.add_sub_cancel' hpos, ← prefix_iff_eq_take.mp h]

/-- **The scan that keeps more** makes up the longer text. -/
theorem length_replaceAll_le (hapart : ¬ Overlaps pat) (hne : pat ≠ []) (hlen : to_.length ≤ pat.length)
    (n : ℕ) : ∀ {src : List α}, src.length ≤ n →
      (replaceAll pat to_ src).length ≤ (replaceApart pat to_ src).length := by
  have hpos := length_pos_of_ne_nil hne
  induction n with
  | zero =>
    intro src hsrc
    have hnil : src = [] := length_eq_zero_iff.mp (by omega)
    rw [hnil, replaceAll, if_neg fun hhere => hne (prefix_nil.mp hhere.2)]
    exact Nat.zero_le _
  | succ n ih =>
    intro src hsrc
    cases src with
    | nil =>
      rw [replaceAll, if_neg fun hhere => hne (prefix_nil.mp hhere.2)]
      exact Nat.zero_le _
    | cons c cs =>
      rw [length_cons] at hsrc
      by_cases hhere : pat <+: c :: cs
      · rw [replaceAll_found hne hhere, replaceApart_found hhere (cons_ne_nil c cs),
          ← drop_drop, append_assoc, length_append, length_append]
        have hshort : ((c :: cs).drop pat.length).length ≤ n := by
          rw [length_drop, length_cons]
          omega
        generalize (c :: cs).drop pat.length = r at hshort ⊢
        by_cases hnext : pat <+: r
        · -- the next occurrence is kept by the one and replaced by the other
          rw [replaceApart_adjacent hapart hne hnext, replaceAll_found hne hnext,
            length_append, length_append]
          have hle := @ih (r.drop pat.length) (by rw [length_drop]; omega)
          omega
        · rw [replaceAll_cons hnext, length_append, length_append]
          have hle := @ih (r.drop 1) (by rw [length_drop]; omega)
          omega
      · rw [replaceAll_missed hhere, replaceApart_missed hhere,
          length_cons, length_cons]
        exact Nat.succ_le_succ (ih (by omega))

/-! ### Occurrences that follow each other. -/

omit [DecidableEq α] in
/-- A pattern with the period `k`, which `to_` continues with the same period. -/
theorem prefix_of_period (hlen : to_.length ≤ pat.length) (hk : 0 < k)
    (hpat : ∀ i < pat.length, k ≤ i → pat[i]? = pat[i - k]?)
    (hto : ∀ i < to_.length, to_[i]? = if i < k then pat[i]? else to_[i - k]?) : to_ <+: pat := by
  have hsame : ∀ i < to_.length, to_[i]? = pat[i]? := by
    intro i
    induction i using Nat.strong_induction_on with
    | h i ih =>
      intro hi
      rw [hto i hi]
      split
      · rfl
      · rw [hpat i (by omega) (by omega)]
        exact ih (i - k) (by omega) (by omega)
  apply prefix_iff_getElem?.mpr
  intro i hi
  rw [← hsame i hi, getElem?_eq_getElem hi]

/-- **A replacement** that cannot be told from what the scan makes of the next occurrence
begins the pattern. -/
theorem prefix_of_replaceApart_adjacent {rest : List α} (hlen : to_.length ≤ pat.length)
    (hne : pat ≠ []) (h : pat <+: r)
    (heq : r.take 1 ++ replaceApart pat to_ (r.drop 1) = to_ ++ rest) : to_ <+: pat := by
  have hpos := length_pos_of_ne_nil hne
  by_cases hagain : ∃ q, q < pat.length - 1 ∧ pat <+: r.drop (1 + q)
  · -- the scan replaces an occurrence that overlaps the one it does not look at
    obtain ⟨hlt, hoccurs⟩ := Nat.find_spec hagain
    have hfirst := fun q => @Nat.find_min _ _ hagain q
    generalize Nat.find hagain = q at hlt hoccurs hfirst
    have hnone : ∀ q' < q, ¬ pat <+: (r.drop 1).drop q' := by
      intro q' hq'
      rw [drop_drop]
      exact fun hthere => hfirst q' hq' ⟨by omega, hthere⟩
    have hne' : r.drop (1 + q) ≠ [] := fun hnil => hne (prefix_nil.mp (hnil ▸ hoccurs))
    rw [replaceApart_keep q hnone, ← append_assoc, drop_drop, ← take_add,
      replaceApart_found hoccurs hne', append_assoc] at heq
    have hpat := prefix_drop_iff.mp hoccurs
    have hr := prefix_iff_getElem?.mp h
    have hlong := length_of_prefix_drop hoccurs
    refine prefix_of_period hlen (Nat.succ_pos q) ?_ ?_
    · intro i hi hki
      have hthere := hpat (i - (q + 1)) (by omega)
      rw [show 1 + q + (i - (q + 1)) = i by omega, hr i hi, ← getElem?_eq_getElem hi] at hthere
      exact hthere
    · intro i hi
      have hat := congrArg (fun l => l[i]?) heq
      rw [getElem?_append_left hi] at hat
      rw [← hat]
      have htake : (r.take (1 + q)).length = 1 + q := by
        rw [length_take]
        omega
      split
      next hik =>
        rw [getElem?_append_left (by omega), getElem?_take_of_lt (by omega), hr i (by omega),
          ← getElem?_eq_getElem]
      next hik =>
        rw [getElem?_append_right (by omega), htake, getElem?_append_left (by omega)]
        congr 1
        omega
  · -- it keeps the whole of it
    have hnone : ∀ q < pat.length - 1, ¬ pat <+: (r.drop 1).drop q := by
      intro q hq
      rw [drop_drop]
      exact fun hthere => hagain ⟨q, hq, hthere⟩
    rw [replaceApart_keep (pat.length - 1) hnone, ← append_assoc, drop_drop,
      ← take_add, Nat.add_sub_cancel' hpos, ← prefix_iff_eq_take.mp h] at heq
    exact prefix_of_prefix_length_le ⟨rest, rfl⟩ ⟨_, heq⟩ hlen

/-- Without adjacent occurrences both replace the same ones. -/
theorem replaceApart_of_noneAdjacent (hne : pat ≠ []) {src : List α} (h : NoneAdjacent pat src) :
    replaceApart pat to_ src = replaceAll pat to_ src := by
  induction src using replaceApart.induct pat with
  | case1 => rw [replaceApart, replaceAll, if_neg fun hhere => hne (prefix_nil.mp hhere.2)]
  | case2 c cs hhere ih =>
    obtain ⟨hnext, hrest⟩ := (along_found hhere (cons_ne_nil c cs)).mp h
    rw [replaceApart_found hhere (cons_ne_nil c cs), replaceAll_found hne hhere,
      replaceAll_cons (hnext hhere), append_assoc, drop_drop]
    show _ ++ (_ ++ replaceApart pat to_ (cs.drop pat.length)) = _
    rw [ih hrest]
    rfl
  | case3 c cs hhere ih =>
    obtain ⟨-, hrest⟩ := (along_missed hhere).mp h
    rw [replaceApart_missed hhere, replaceAll_missed hhere, ih hrest]

/-- The replacement is a shorter beginning of a pattern that overlaps itself. -/
def ShortensOverlap (pat to_ : List α) : Prop :=
  to_ <+: pat ∧ to_.length < pat.length ∧ Overlaps pat

/-- The next occurrence is kept, and yet the text is the one in which it is replaced. -/
theorem unchanged_of_adjacent (hne : pat ≠ []) (hlen : to_.length ≤ pat.length) (h : pat <+: r)
    (heq : r.take 1 ++ replaceApart pat to_ (r.drop 1) = to_ ++ replaceAll pat to_ (r.drop pat.length)) :
    pat = to_ ∨ ShortensOverlap pat to_ := by
  have hbegins := prefix_of_replaceApart_adjacent hlen hne h heq
  by_cases hsame : to_.length = pat.length
  · exact Or.inl (hbegins.eq_of_length hsame).symm
  by_cases hoverlaps : Overlaps pat
  · exact Or.inr ⟨hbegins, by omega, hoverlaps⟩
  exfalso
  rw [replaceApart_adjacent hoverlaps hne h] at heq
  have hlength := congrArg List.length heq
  rw [length_append, length_append] at hlength
  have hle := length_replaceAll_le hoverlaps hne hlen _ (le_refl (r.drop pat.length).length)
  omega

/-- **WHEN THE TWO TEXTS ARE THE SAME**: no occurrence follows another one, or the
    pattern replaces itself, or it overlaps itself and a beginning of it replaces it. -/
theorem noneAdjacent_of_eq (hne : pat ≠ []) (hlen : to_.length ≤ pat.length) (src : List α)
    (heq : replaceApart pat to_ src = replaceAll pat to_ src) :
    NoneAdjacent pat src ∨ pat = to_ ∨ ShortensOverlap pat to_ := by
  induction src using replaceApart.induct pat with
  | case1 =>
    apply Or.inl
    rw [NoneAdjacent, AlongScan]
    trivial
  | case2 c cs hhere ih =>
    rw [replaceApart_found hhere (cons_ne_nil c cs), replaceAll_found hne hhere,
      append_assoc, append_cancel_left_eq, ← drop_drop] at heq
    by_cases hnext : pat <+: (c :: cs).drop pat.length
    · rw [replaceAll_found hne hnext] at heq
      exact Or.inr (unchanged_of_adjacent hne hlen hnext heq)
    · rw [replaceAll_cons hnext, append_cancel_left_eq, drop_drop] at heq
      refine (ih heq).imp_left fun hrest => ?_
      exact (along_found hhere (cons_ne_nil c cs)).mpr ⟨fun _ => hnext, hrest⟩
  | case3 c cs hhere ih =>
    rw [replaceApart_missed hhere, replaceAll_missed hhere] at heq
    refine (ih (List.cons.inj heq).2).imp_left fun hrest => ?_
    exact (along_missed hhere).mpr ⟨fun hpre => absurd hpre hhere, hrest⟩

end Apart

end KalavaPir.Framework
