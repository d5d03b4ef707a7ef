/-
  KalavaPir.Common.QStrRep — replacing a string in a string, `common/qfunc.h`.

  Strings come with their lengths and are lists of bytes; pointers into them are
  distances.  `dest` is what the pointer to the target sees, and a `memcpy`
  beyond its `max_size` bytes is `none`.  The tests for NULL are left out.
-/
import KalavaPir.Framework.Loop
import KalavaPir.Framework.Memory
import KalavaPir.Framework.Occurrences
import Mathlib.Algebra.Order.Ring.Int

namespace KalavaPir.Common

open KalavaPir.Framework List

/-! ## §1. The functions. -/

/-- `while(p<=pend) { … p++; }`, where the number is that of the places up to `pend`. -/
def strstrFrom (src pat : List UInt8) : ℕ → ℕ → Option ℕ
  | 0, _ => none
  | k + 1, p =>
    if src[p]? = pat[0]? then
      if (src.drop p).take pat.length = pat then some p else strstrFrom src pat k (p + 1)
    else strstrFrom src pat k (p + 1)

/-- qfunc.h:177, the distance of the place that is returned. -/
def q_strstr (src pat : List UInt8) : Option ℕ :=
  if src.length = 0 ∨ pat.length = 0 then none
  else strstrFrom src pat (src.length + 1 - pat.length) 0

/-- `memcpy(dest+p, bs, …)` into `max_size` bytes. -/
def memcpyTo (max_size : ℤ) (dest : Memory) (p : ℕ) (bs : List UInt8) : Option Memory :=
  if ((p + bs.length : ℕ) : ℤ) ≤ max_size then some (dest.write p bs) else none

/-- The variables of the loop. -/
structure RepState where
  p1 : ℕ
  p2 : ℕ
  dest : Memory

/-- The body of `do { … } while(p!=NULL)`. -/
def repRound (src from_ to_ : List UInt8) (max_size : ℤ) (s : RepState) :
    Option (LoopStep RepState (ℤ × Memory)) :=
  match q_strstr (src.drop s.p1) from_ with
  | none =>
    let len := src.length - s.p1
    if ((s.p2 + len : ℕ) : ℤ) > max_size then some (.done (-2, s.dest))
    else
      (memcpyTo max_size s.dest s.p2 ((src.drop s.p1).take len)).bind fun dest =>
        some (.done (((s.p2 + len : ℕ) : ℤ), dest))
  | some p =>
    let len := p
    if ((s.p2 + len + to_.length : ℕ) : ℤ) > max_size then some (.done (-2, s.dest))
    else
      (memcpyTo max_size s.dest s.p2 ((src.drop s.p1).take len)).bind fun dest =>
        (memcpyTo max_size dest (s.p2 + len) to_).bind fun dest =>
          some (.again { p1 := s.p1 + p + from_.length, p2 := s.p2 + (len + to_.length), dest := dest })

/-- qfunc.h:373, with as many rounds as there can be. -/
def q_strrep (src from_ to_ : List UInt8) (dest : Memory) (max_size : ℤ) : Option (ℤ × Memory) :=
  if src.length = 0 ∨ from_.length = 0 ∨ to_.length = 0 ∨ max_size ≤ 0 then some (-1, dest)
  else loop (repRound src from_ to_ max_size) (src.length + 1) { p1 := 0, p2 := 0, dest := dest }

/-! ## §2. The search. -/

section Search

variable {src pat : List UInt8}

theorem strstrFrom_succ (hne : pat ≠ []) (k p : ℕ) : strstrFrom src pat (k + 1) p =
    if pat <+: src.drop p then some p else strstrFrom src pat k (p + 1) := by
  have htake : (src.drop p).take pat.length = pat ↔ pat <+: src.drop p := by
    rw [prefix_iff_eq_take, eq_comm]
  rw [strstrFrom]
  by_cases hhere : pat <+: src.drop p
  · have hfirst : src[p]? = pat[0]? := prefix_drop_iff.mp hhere 0 (length_pos_of_ne_nil hne)
    rw [if_pos hhere, if_pos hfirst, if_pos (htake.mpr hhere)]
  rw [if_neg hhere]
  split
  · rw [if_neg (mt htake.mp hhere)]
  · rfl

theorem strstrFrom_cases (hne : pat ≠ []) (k : ℕ) : ∀ p,
    (∃ q, strstrFrom src pat k p = some q ∧ pat <+: src.drop q ∧
      ∀ r, p ≤ r → r < q → ¬ pat <+: src.drop r) ∨
    strstrFrom src pat k p = none ∧ ∀ r, p ≤ r → r < p + k → ¬ pat <+: src.drop r := by
  induction k with
  | zero => exact fun p => Or.inr ⟨rfl, fun r _ _ => by omega⟩
  | succ k ih =>
    intro p
    rw [strstrFrom_succ hne]
    by_cases hhere : pat <+: src.drop p
    · rw [if_pos hhere]
      exact Or.inl ⟨p, rfl, hhere, fun r _ _ => by omega⟩
    · rw [if_neg hhere]
      exact search_step hhere (ih (p + 1))

/-- **THE SEARCH** finds the first occurrence, or there is none. -/
theorem q_strstr_cases (src : List UInt8) (hne : pat ≠ []) :
    (∃ p, q_strstr src pat = some p ∧ FirstAt pat src p) ∨
      q_strstr src pat = none ∧ ∀ q, ¬ pat <+: src.drop q := by
  have hpos := length_pos_of_ne_nil hne
  unfold q_strstr
  by_cases hempty : src.length = 0 ∨ pat.length = 0
  · rw [if_pos hempty]
    refine Or.inr ⟨rfl, fun q hq => ?_⟩
    have hle := length_of_prefix_drop hq
    omega
  rw [if_neg hempty]
  obtain ⟨p, hp, hoccurs, hfirst⟩ | ⟨hnone, hno⟩ :=
    @strstrFrom_cases src pat hne (src.length + 1 - pat.length) 0
  · exact Or.inl ⟨p, hp, hoccurs, fun q hq => hfirst q (Nat.zero_le q) hq⟩
  · refine Or.inr ⟨hnone, fun q hq => ?_⟩
    have hle := length_of_prefix_drop hq
    exact hno q (Nat.zero_le q) (by omega) hq

end Search

/-! ## §3. The loop. -/

section Loop

variable {src from_ to_ : List UInt8} {dest dest' : Memory} {max_size : ℤ} {s : RepState}

variable {bs : List UInt8}

theorem memcpyTo_of_le {p : ℕ} (h : ((p + bs.length : ℕ) : ℤ) ≤ max_size) :
    memcpyTo max_size dest p bs = some (dest.write p bs) := if_pos h

/-- Bytes from `max_size` on are as they were. -/
def Untouched (max_size : ℤ) (dest dest' : Memory) : Prop := ∀ i : ℕ, max_size ≤ i → dest' i = dest i

theorem Untouched.write (h : Untouched max_size dest dest') {p : ℕ}
    (hfit : ((p + bs.length : ℕ) : ℤ) ≤ max_size) : Untouched max_size dest (dest'.write p bs) := by
  intro i hi
  show (if p ≤ i ∧ i < p + bs.length then _ else _) = _
  rw [if_neg (by omega)]
  exact h i hi

theorem read_write_append (h : dest.read 0 bs.length = bs) (bs' : List UInt8) :
    (dest.write bs.length bs').read 0 (bs ++ bs').length = bs ++ bs' := by
  rw [length_append, Memory.read_add, Nat.zero_add, Memory.read_write_self,
    Memory.read_write_of_disjoint _ (Or.inl (by omega)), h]

/-- **The invariant**: `out` has been written, and the rest of `src` makes up the
    rest of the result. -/
structure RepAt (src from_ to_ : List UInt8) (dest : Memory) (max_size : ℤ) (s : RepState)
    (out : List UInt8) : Prop where
  p1_le : s.p1 ≤ src.length
  p2_eq : s.p2 = out.length
  written : s.dest.read 0 out.length = out
  rest : replaceAll from_ to_ src = out ++ replaceAll from_ to_ (src.drop s.p1)
  frame : Untouched max_size dest s.dest

/-- What the loop returns. -/
def Replaced (src from_ to_ : List UInt8) (dest : Memory) (max_size : ℤ) (r : ℤ × Memory) : Prop :=
  Untouched max_size dest r.2 ∧
    (((replaceAll from_ to_ src).length ≤ max_size ∧ r.1 = (replaceAll from_ to_ src).length ∧
      r.2.read 0 (replaceAll from_ to_ src).length = replaceAll from_ to_ src) ∨
    (max_size < (replaceAll from_ to_ src).length ∧ r.1 = -2))

/-- **A ROUND** replaces the next occurrence, or ends the loop. -/
theorem RepAt.round {out : List UInt8} (hfrom : from_ ≠ []) (h : RepAt src from_ to_ dest max_size s out) :
    (∃ s', repRound src from_ to_ max_size s = some (.again s') ∧
      (∃ out', RepAt src from_ to_ dest max_size s' out') ∧ src.length - s'.p1 < src.length - s.p1) ∨
    ∃ r, repRound src from_ to_ max_size s = some (.done r) ∧
      Replaced src from_ to_ dest max_size r := by
  have hpos := length_pos_of_ne_nil hfrom
  have hrest := h.rest
  unfold repRound
  obtain ⟨p, hp, hfirst⟩ | ⟨hnone, hno⟩ := q_strstr_cases (src.drop s.p1) hfrom
  · -- `from` occurs `p` bytes further on
    rw [hp]
    dsimp only
    have hle := length_of_prefix_drop hfirst.occurs
    rw [length_drop] at hle
    have hlen : ((src.drop s.p1).take p).length = p := by
      rw [length_take, length_drop]
      omega
    rw [replaceAll_first hfrom p hfirst, drop_drop, ← append_assoc, ← append_assoc] at hrest
    have hnext : (out ++ (src.drop s.p1).take p ++ to_).length = s.p2 + p + to_.length := by
      rw [length_append, length_append, hlen, h.p2_eq]
    by_cases hfit : ((s.p2 + p + to_.length : ℕ) : ℤ) > max_size
    · -- already this part of the result does not fit
      refine Or.inr ⟨_, if_pos hfit, h.frame, Or.inr ⟨?_, rfl⟩⟩
      rw [hrest, length_append, hnext]
      omega
    rw [if_neg hfit, memcpyTo_of_le (by rw [hlen]; omega), Option.bind_some,
      memcpyTo_of_le (by omega), Option.bind_some]
    refine Or.inl ⟨_, rfl, ⟨out ++ (src.drop s.p1).take p ++ to_, ?_⟩, ?_⟩
    · -- the bytes in front of it, and `to` behind them
      have hwritten := read_write_append h.written ((src.drop s.p1).take p)
      have hboth := read_write_append hwritten to_
      rw [← h.p2_eq, length_append, hlen, ← h.p2_eq] at hboth
      refine ⟨?_, ?_, hboth, ?_, ?_⟩
      · show s.p1 + p + from_.length ≤ src.length
        omega
      · show s.p2 + (p + to_.length) = _
        rw [hnext, Nat.add_assoc]
      · rw [hrest, Nat.add_assoc]
      · exact (h.frame.write (by rw [hlen]; omega)).write (by omega)
    · show src.length - (s.p1 + p + from_.length) < src.length - s.p1
      omega
  · -- it does not occur any more: the rest is copied
    rw [hnone]
    have hall : (src.drop s.p1).take (src.length - s.p1) = src.drop s.p1 := by
      rw [take_of_length_le]
      rw [length_drop]
    rw [replaceAll_none hno] at hrest
    have hlength : (replaceAll from_ to_ src).length = s.p2 + (src.length - s.p1) := by
      rw [hrest, length_append, length_drop, h.p2_eq]
    by_cases hfit : ((s.p2 + (src.length - s.p1) : ℕ) : ℤ) > max_size
    · refine Or.inr ⟨_, if_pos hfit, h.frame, Or.inr ⟨?_, rfl⟩⟩
      rw [hlength]
      exact hfit
    have hcopy : ((s.p2 + (src.drop s.p1).length : ℕ) : ℤ) ≤ max_size := by
      rw [length_drop]
      exact not_lt.mp hfit
    rw [if_neg hfit, hall, memcpyTo_of_le hcopy, Option.bind_some]
    refine Or.inr ⟨_, rfl, h.frame.write hcopy, Or.inl ⟨?_, ?_, ?_⟩⟩
    · rw [hlength]
      exact not_lt.mp hfit
    · rw [hlength]
    · rw [hrest, h.p2_eq]
      exact read_write_append h.written _

end Loop

/-! ## §4. The function. -/

/-- What the function is meant to return, if none of its arguments is empty. -/
def StrRepMeets (src from_ to_ : List UInt8) (dest : Memory) (max_size : ℤ) : Prop :=
  ∃ r, q_strrep src from_ to_ dest max_size = some r ∧ Replaced src from_ to_ dest max_size r

theorem q_strrep_meets {src from_ to_ : List UInt8} (hsrc : src ≠ []) (hfrom : from_ ≠ [])
    (hto : to_ ≠ []) (dest : Memory) {max_size : ℤ} (hmax : 0 < max_size) :
    StrRepMeets src from_ to_ dest max_size := by
  have hempty : ∀ {l : List UInt8}, l ≠ [] → l.length ≠ 0 := fun h => mt List.length_eq_zero_iff.mp h
  unfold StrRepMeets q_strrep
  rw [if_neg (by
    rintro (h | h | h | h)
    · exact hempty hsrc h
    · exact hempty hfrom h
    · exact hempty hto h
    · omega)]
  refine loop_ends (I := fun s => ∃ out, RepAt src from_ to_ dest max_size s out)
    (fun s => src.length - s.p1) (fun s ⟨out, hs⟩ => hs.round hfrom) _ ⟨[], ?_⟩ ?_
  · exact ⟨Nat.zero_le _, rfl, rfl, rfl, fun i _ => rfl⟩
  · show src.length - 0 < src.length + 1
    omega

/-- **ALL LEFTMOST OCCURRENCES ARE REPLACED** if the result fits into a target
    with at least one byte.  For a smaller one the answer is -1. -/
theorem q_strrep_spec {src from_ to_ : List UInt8} (hsrc : src ≠ []) (hfrom : from_ ≠ [])
    (hto : to_ ≠ []) (dest : Memory) (max_size : ℤ) :
    (0 < max_size → StrRepMeets src from_ to_ dest max_size) ∧
      (max_size ≤ 0 → q_strrep src from_ to_ dest max_size = some (-1, dest)) := by
  constructor
  · intro hmax
    exact q_strrep_meets hsrc hfrom hto dest hmax
  · intro hmax
    exact if_pos (Or.inr (Or.inr (Or.inr hmax)))

/-- Two occurrences that overlap: the first one is replaced, and the result just fits. -/
theorem q_strrep_spec_overlap : StrRepMeets [97, 97, 97] [97, 97] [98] (fun _ => 0) 2 :=
  (q_strrep_spec (by decide) (by decide) (by decide) (fun _ => 0) 2).1 (by decide)

/-- **A target without a byte** is refused like an empty string. -/
theorem q_strrep_no_target : ¬ ∀ (src from_ to_ : List UInt8) (dest : Memory) (max_size : ℤ),
    src ≠ [] → from_ ≠ [] → to_ ≠ [] → StrRepMeets src from_ to_ dest max_size := by
  intro h
  obtain ⟨r, hrun, -, ⟨-, hr, -⟩ | ⟨-, hr⟩⟩ :=
    h [97] [97] [98] (fun _ => 0) 0 (by decide) (by decide) (by decide)
  · have hcode : some ((-1 : ℤ), (fun _ => 0 : Memory)) = some r := hrun
    cases hcode
    exact absurd hr (by
      show (-1 : ℤ) ≠ ((_ : ℕ) : ℤ)
      omega)
  · have hcode : some ((-1 : ℤ), (fun _ => 0 : Memory)) = some r := hrun
    cases hcode
    exact absurd hr (by decide)

end KalavaPir.Common
