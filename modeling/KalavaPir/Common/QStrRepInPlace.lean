/-
  KalavaPir.Common.QStrRepInPlace — replacing a string by a shorter one where it
  stands, `common/qfunc.h`.

  `src` is what the pointer sees, the text and whatever is behind it; how far it
  has been read is kept with the variables of the loop.  A `memcmp` reads all the
  bytes that it is given.

  A byte behind an occurrence is copied without a look at it.  An occurrence that
  directly follows is therefore left alone, and one at the end of the text takes a
  byte with it that the text does not have.
-/
import KalavaPir.Common.QStrRep

namespace KalavaPir.Common

open KalavaPir.Framework List

/-! ## §1. The function. -/

/-- The variables of the loop, and how many bytes of `src` have been read. -/
structure InPlaceState where
  i : ℕ
  j : ℕ
  src : Memory
  reads : ℕ

namespace InPlaceState

/-- The bytes in front of `p` are read. -/
def touch (s : InPlaceState) (p : ℕ) : InPlaceState := { s with reads := max s.reads p }

/-- `*(src+j)=*(src+i)`. -/
def assign (s : InPlaceState) : InPlaceState := { s with src := s.src.write s.j [s.src s.i] }

/-- `if(*(src+i)==*from) { … }`. -/
def matchHere (from_ to_ : List UInt8) (s : InPlaceState) : InPlaceState :=
  let s := s.touch (s.i + 1)
  if s.src s.i = from_.getD 0 0 then
    let s := s.touch (s.i + from_.length)
    if s.src.read s.i from_.length = from_ then
      { s with src := s.src.write s.j to_, i := s.i + from_.length, j := s.j + to_.length }
    else s.assign
  else s

/-- `if(j!=i) *(src+j)=*(src+i);`. -/
def copyHere (s : InPlaceState) : InPlaceState :=
  if s.j ≠ s.i then (s.touch (s.i + 1)).assign else s

/-- `++i, ++j`. -/
def advance (s : InPlaceState) : InPlaceState := { s with i := s.i + 1, j := s.j + 1 }

end InPlaceState

/-- `for(i=0, j=0; i<srclen; ++i, ++j)`. -/
def inPlaceRound (srclen : ℕ) (from_ to_ : List UInt8) (s : InPlaceState) :
    Option (LoopStep InPlaceState InPlaceState) :=
  if s.i < srclen then some (.again (s.matchHere from_ to_).copyHere.advance) else some (.done s)

/-- What the function returns, what it leaves, and how many bytes it has read. -/
structure InPlaceResult where
  ret : ℤ
  src : Memory
  reads : ℕ

/-- qfunc.h:352, with as many rounds as there can be. -/
def q_strrep_in_place (src : Memory) (srclen : ℕ) (from_ to_ : List UInt8) : Option InPlaceResult :=
  if srclen = 0 ∨ from_.length = 0 ∨ to_.length = 0 ∨ from_.length < to_.length then
    some { ret := -1, src := src, reads := 0 }
  else
    (loop (inPlaceRound srclen from_ to_) (srclen + 1) { i := 0, j := 0, src := src, reads := 0 }).map
      fun s => { ret := s.j, src := s.src.write s.j [0], reads := s.reads }

/-! ## §2. The buffer. -/

section Buffer

variable {text from_ to_ out : List UInt8} {s : InPlaceState}

/-- **The invariant**: `out` has been written, what has not been looked at is as it
    was, and nothing behind the text has been read. -/
structure Held (text : List UInt8) (s : InPlaceState) (out : List UInt8) : Prop where
  i_le : s.i ≤ text.length
  j_eq : s.j = out.length
  le : s.j ≤ s.i
  written : s.src.read 0 out.length = out
  rest : ∀ k, s.i ≤ k → k < text.length → text[k]? = some (s.src k)
  reads_le : s.reads ≤ text.length

theorem Held.touch (h : Held text s out) {p : ℕ} (hp : p ≤ text.length) : Held text (s.touch p) out where
  i_le := h.i_le
  j_eq := h.j_eq
  le := h.le
  written := h.written
  rest := h.rest
  reads_le := max_le h.reads_le hp

theorem write_apply (m : Memory) (p : ℕ) (bs : List UInt8) (k : ℕ) :
    m.write p bs k = if p ≤ k ∧ k < p + bs.length then bs.getD (k - p) 0 else m k := rfl

section

variable (h : Held text s out)
include h

/-- The byte at `i` is at `j` now, and nothing else has changed behind it. -/
theorem Held.assign : Held text s.assign out where
  i_le := h.i_le
  j_eq := h.j_eq
  le := h.le
  written := by
    show (s.src.write s.j [s.src s.i]).read 0 out.length = out
    rw [Memory.read_write_of_disjoint _ (Or.inl (by rw [h.j_eq]; omega)), h.written]
  rest := by
    intro k hk hlt
    have hik : s.i ≤ k := hk
    show text[k]? = some (s.src.write s.j [s.src s.i] k)
    rw [h.rest k hk hlt, write_apply]
    have hle := h.le
    split
    next hin =>
      -- only `i` itself can be written, and then with its own byte
      have hlen : [s.src s.i].length = 1 := rfl
      have hki : k = s.i := by omega
      have hji : s.j = s.i := by omega
      rw [hki, hji, Nat.sub_self]
      rfl
    next => rfl
  reads_le := h.reads_le

/-- **A byte is copied.** -/
theorem Held.copy (hi : s.i < text.length) : Held text s.copyHere.advance (out ++ (text.drop s.i).take 1) := by
  have hle := h.le
  have hbyte : (text.drop s.i).take 1 = [s.src s.i] := by
    have hget := h.rest s.i (le_refl s.i) hi
    rw [getElem?_eq_getElem hi, Option.some_inj] at hget
    rw [drop_eq_getElem_cons hi, take_succ_cons, take_zero, hget]
  have hcopy : Held text (s.copyHere) out ∧ s.copyHere.i = s.i ∧ s.copyHere.j = s.j ∧
      s.copyHere.src s.j = s.src s.i := by
    unfold InPlaceState.copyHere
    split
    next hne =>
      refine ⟨(h.touch (show s.i + 1 ≤ text.length from hi)).assign, rfl, rfl, ?_⟩
      show s.src.write s.j [s.src s.i] s.j = s.src s.i
      rw [write_apply, if_pos (by simp), Nat.sub_self]
      rfl
    next heq =>
      rw [not_not] at heq
      exact ⟨h, rfl, rfl, by rw [heq]⟩
  obtain ⟨hheld, hci, hcj, hcopied⟩ := hcopy
  have hlength : (out ++ (text.drop s.i).take 1).length = out.length + 1 := by
    rw [hbyte, length_append]
    rfl
  refine ⟨?_, ?_, ?_, ?_, ?_, hheld.reads_le⟩
  · show s.copyHere.i + 1 ≤ text.length
    omega
  · show s.copyHere.j + 1 = _
    rw [hlength, hcj, h.j_eq]
  · show s.copyHere.j + 1 ≤ s.copyHere.i + 1
    omega
  · show s.copyHere.src.read 0 _ = _
    rw [hlength, Memory.read_add, hheld.written, hbyte, Nat.zero_add, ← h.j_eq]
    congr 1
    show [s.copyHere.src (s.j + 0)] = _
    rw [Nat.add_zero, hcopied]
  · intro k hk hlt
    have hik : s.copyHere.i + 1 ≤ k := hk
    exact hheld.rest k (by omega) hlt

/-- **`to` is stored** in place of an occurrence. -/
theorem Held.store (hfit : s.i + from_.length ≤ text.length) (hlen : to_.length ≤ from_.length) :
    Held text { s with src := s.src.write s.j to_, i := s.i + from_.length, j := s.j + to_.length }
      (out ++ to_) := by
  have hle := h.le
  refine ⟨hfit, ?_, ?_, ?_, ?_, h.reads_le⟩
  · show s.j + to_.length = _
    rw [length_append, h.j_eq]
  · show s.j + to_.length ≤ s.i + from_.length
    omega
  · show (s.src.write s.j to_).read 0 _ = _
    rw [h.j_eq]
    exact read_write_append h.written to_
  · intro k hk hlt
    have hik : s.i + from_.length ≤ k := hk
    show text[k]? = some (s.src.write s.j to_ k)
    rw [write_apply, if_neg (by omega)]
    exact h.rest k (by omega) hlt

theorem Held.first_iff (hi : s.i < text.length) (hfrom : from_ ≠ []) :
    s.src s.i = from_.getD 0 0 ↔ (text.drop s.i)[0]? = from_[0]? := by
  have hpos := length_pos_of_ne_nil hfrom
  rw [getElem?_drop, Nat.add_zero, h.rest s.i (le_refl s.i) hi, getElem?_eq_getElem hpos,
    Option.some_inj, getD_eq_getElem _ _ hpos]

/-- The `memcmp`. -/
theorem Held.compare_iff (hfit : s.i + from_.length ≤ text.length) :
    s.src.read s.i from_.length = from_ ↔ from_ <+: text.drop s.i := by
  rw [prefix_drop_iff]
  constructor
  · intro hread t ht
    rw [h.rest (s.i + t) (by omega) (by omega)]
    have hat := congrArg (fun l => l[t]?) hread
    rw [← hat]
    show _ = ((List.range from_.length).map fun t => s.src (s.i + t))[t]?
    rw [getElem?_map, getElem?_range ht]
    rfl
  · intro hsame
    apply ext_getElem?
    intro t
    show ((List.range from_.length).map fun t => s.src (s.i + t))[t]? = _
    by_cases ht : t < from_.length
    · rw [← hsame t ht, h.rest (s.i + t) (by omega) (by omega), getElem?_map,
        getElem?_range ht]
      rfl
    · rw [getElem?_eq_none (by rw [length_map, length_range]; omega),
        getElem?_eq_none (by omega)]

end

end Buffer

/-! ## §3. The loop. -/

section Loop

variable {text from_ to_ out : List UInt8} {s : InPlaceState}

/-- Where the loop looks at the first byte of `from`, the rest of it fits into the
    text, and an occurrence does not end the text. -/
def StaysInside (from_ : List UInt8) : List UInt8 → Prop :=
  AlongScan from_ fun s => s[0]? = from_[0]? → from_.length ≤ s.length ∧ (from_ <+: s → from_.length < s.length)

/-- Bytes behind the text have been read, or `j` counts more of them than there are. -/
def Spoilt (text : List UInt8) (s : InPlaceState) : Prop := text.length < s.reads ∨ text.length < s.j

theorem first_found {l : List UInt8} (hfrom : from_ ≠ []) (h : from_ <+: l) : l[0]? = from_[0]? := by
  have hpos := length_pos_of_ne_nil hfrom
  rw [prefix_iff_getElem?.mp h 0 hpos, getElem?_eq_getElem hpos]

theorem Held.matchHere_found (h : Held text s out) (hi : s.i < text.length) (hfrom : from_ ≠ [])
    (hhere : from_ <+: text.drop s.i) : s.matchHere from_ to_ =
      { i := s.i + from_.length, j := s.j + to_.length, src := s.src.write s.j to_,
        reads := max (max s.reads (s.i + 1)) (s.i + from_.length) } := by
  have hfit := length_of_prefix_drop hhere
  have hfirst := (h.first_iff hi hfrom).mpr (first_found hfrom hhere)
  have hsame := (h.compare_iff (by omega)).mpr hhere
  show (if s.src s.i = from_.getD 0 0 then _ else _) = _
  rw [if_pos hfirst]
  show (if s.src.read s.i from_.length = from_ then _ else _) = _
  rw [if_pos hsame]
  rfl

/-- **A ROUND AT AN OCCURRENCE** stores `to` and copies the byte behind it. -/
theorem Held.round_here (h : Held text s out) (hi : s.i < text.length) (hfrom : from_ ≠ [])
    (hlen : to_.length ≤ from_.length) (hhere : from_ <+: text.drop s.i)
    (hbehind : s.i + from_.length < text.length) : Held text (s.matchHere from_ to_).copyHere.advance
      (out ++ (to_ ++ ((text.drop s.i).drop from_.length).take 1)) := by
  rw [h.matchHere_found hi hfrom hhere, ← append_assoc, drop_drop]
  have htouched := (h.touch (show s.i + 1 ≤ _ from hi)).touch (le_of_lt hbehind)
  exact (htouched.store (le_of_lt hbehind) hlen).copy hbehind

theorem matchHere_skips (hfirst : ¬ s.src s.i = from_.getD 0 0) :
    s.matchHere from_ to_ = s.touch (s.i + 1) := if_neg hfirst

theorem matchHere_differs (hfirst : s.src s.i = from_.getD 0 0)
    (hdiffers : ¬ s.src.read s.i from_.length = from_) :
    s.matchHere from_ to_ = ((s.touch (s.i + 1)).touch (s.i + from_.length)).assign := by
  show (if s.src s.i = from_.getD 0 0 then _ else _) = _
  rw [if_pos hfirst]
  exact if_neg hdiffers

theorem matchHere_grows (from_ to_ : List UInt8) (s : InPlaceState) :
    s.i ≤ (s.matchHere from_ to_).i ∧ s.j ≤ (s.matchHere from_ to_).j ∧
      s.reads ≤ (s.matchHere from_ to_).reads := by
  unfold InPlaceState.matchHere InPlaceState.touch InPlaceState.assign
  dsimp only
  split
  · split
    · exact ⟨Nat.le_add_right _ _, Nat.le_add_right _ _, by simp⟩
    · exact ⟨le_rfl, le_rfl, by simp⟩
  · exact ⟨le_rfl, le_rfl, by simp⟩

theorem copyHere_grows (s : InPlaceState) :
    s.copyHere.i = s.i ∧ s.copyHere.j = s.j ∧ s.reads ≤ s.copyHere.reads := by
  unfold InPlaceState.copyHere
  split
  · exact ⟨rfl, rfl, Nat.le_max_left _ _⟩
  · exact ⟨rfl, rfl, le_rfl⟩

/-- **A ROUND PAST ANOTHER BYTE** copies it. -/
theorem Held.round_past (h : Held text s out) (hi : s.i < text.length) (hfrom : from_ ≠ [])
    (hnot : ¬ from_ <+: text.drop s.i)
    (hinside : (text.drop s.i)[0]? = from_[0]? → s.i + from_.length ≤ text.length) :
    Held text (s.matchHere from_ to_).copyHere.advance (out ++ (text.drop s.i).take 1) ∧
      (s.matchHere from_ to_).copyHere.advance.i = s.i + 1 := by
  have htouched := h.touch (show s.i + 1 ≤ _ from hi)
  have hmatch : Held text (s.matchHere from_ to_) out ∧ (s.matchHere from_ to_).i = s.i := by
    by_cases hfirst : s.src s.i = from_.getD 0 0
    · have hfit := hinside ((h.first_iff hi hfrom).mp hfirst)
      have hdiffers := mt (h.compare_iff hfit).mp hnot
      rw [matchHere_differs hfirst hdiffers]
      exact ⟨(htouched.touch hfit).assign, rfl⟩
    · rw [matchHere_skips hfirst]
      exact ⟨htouched, rfl⟩
  obtain ⟨hheld, heq⟩ := hmatch
  have hcopy := hheld.copy (by omega)
  rw [heq] at hcopy
  refine ⟨hcopy, ?_⟩
  show (s.matchHere from_ to_).copyHere.i + 1 = s.i + 1
  rw [(copyHere_grows _).1, heq]

theorem round_grows (from_ to_ : List UInt8) (s : InPlaceState) :
    s.i < (s.matchHere from_ to_).copyHere.advance.i ∧
      s.j ≤ (s.matchHere from_ to_).copyHere.advance.j ∧
      s.reads ≤ (s.matchHere from_ to_).copyHere.advance.reads := by
  obtain ⟨hi, hj, hreads⟩ := matchHere_grows from_ to_ s
  obtain ⟨hci, hcj, hcreads⟩ := copyHere_grows (s.matchHere from_ to_)
  refine ⟨?_, ?_, le_trans hreads hcreads⟩
  · show s.i < (s.matchHere from_ to_).copyHere.i + 1
    omega
  · show s.j ≤ (s.matchHere from_ to_).copyHere.j + 1
    omega

theorem Spoilt.round (h : Spoilt text s) : Spoilt text (s.matchHere from_ to_).copyHere.advance := by
  obtain ⟨-, hj, hreads⟩ := round_grows from_ to_ s
  exact h.imp (fun h => lt_of_lt_of_le h hreads) (fun h => lt_of_lt_of_le h hj)

/-- **A ROUND THAT DOES NOT STAY INSIDE** spoils the rest. -/
theorem Held.round_spoils (h : Held text s out) (hi : s.i < text.length) (hfrom : from_ ≠ [])
    (hfirst : (text.drop s.i)[0]? = from_[0]?) (hnot : ¬ (s.i + from_.length ≤ text.length ∧
      (from_ <+: text.drop s.i → s.i + from_.length < text.length))) :
    Spoilt text (s.matchHere from_ to_).copyHere.advance := by
  by_cases hfit : s.i + from_.length ≤ text.length
  · -- an occurrence at the end: the byte behind it is read, or only counted
    have hnot' : ¬ (from_ <+: text.drop s.i → s.i + from_.length < text.length) :=
      fun hbehind => hnot ⟨hfit, hbehind⟩
    rw [Classical.not_imp] at hnot'
    obtain ⟨hhere, hend⟩ := hnot'
    rw [h.matchHere_found hi hfrom hhere]
    unfold InPlaceState.copyHere
    split
    next hne =>
      apply Or.inl
      show text.length < max _ (s.i + from_.length + 1)
      exact lt_max_of_lt_right (by omega)
    next heq =>
      have hij : s.j + to_.length = s.i + from_.length := not_not.mp heq
      apply Or.inr
      show text.length < s.j + to_.length + 1
      omega
  · -- the comparison reads behind the text
    have hequal := (h.first_iff hi hfrom).mpr hfirst
    have hreads : s.i + from_.length ≤ (s.matchHere from_ to_).reads := by
      unfold InPlaceState.matchHere InPlaceState.touch InPlaceState.assign
      dsimp only
      rw [if_pos hequal]
      split
      · exact Nat.le_max_right _ _
      · exact Nat.le_max_right _ _
    have hmore := (copyHere_grows (s.matchHere from_ to_)).2.2
    apply Or.inl
    show text.length < (s.matchHere from_ to_).copyHere.reads
    omega

/-! ### The whole loop. -/

theorem inPlaceRound_again (hi : s.i < text.length) : inPlaceRound text.length from_ to_ s =
    some (.again (s.matchHere from_ to_).copyHere.advance) := if_pos hi

theorem inPlaceRound_done (hi : ¬ s.i < text.length) : inPlaceRound text.length from_ to_ s =
    some (.done s) := if_neg hi

theorem drop_ne_nil (hi : s.i < text.length) : text.drop s.i ≠ [] := by
  intro hnil
  have hlength := congrArg List.length hnil
  rw [length_drop, length_nil] at hlength
  omega

/-- **A ROUND** adds the next piece of the result, unless it spoils the rest. -/
theorem Held.round (h : Held text s out) (hi : s.i < text.length) (hfrom : from_ ≠ [])
    (hlen : to_.length ≤ from_.length) :
    (Spoilt text (s.matchHere from_ to_).copyHere.advance ∧ ¬ StaysInside from_ (text.drop s.i)) ∨
    ∃ piece, Held text (s.matchHere from_ to_).copyHere.advance (out ++ piece) ∧
      replaceApart from_ to_ (text.drop s.i) =
        piece ++ replaceApart from_ to_ (text.drop (s.matchHere from_ to_).copyHere.advance.i) ∧
      (StaysInside from_ (text.drop s.i) ↔
        StaysInside from_ (text.drop (s.matchHere from_ to_).copyHere.advance.i)) := by
  have hne := drop_ne_nil hi
  unfold StaysInside
  by_cases hhere : from_ <+: text.drop s.i
  · -- an occurrence, with a byte behind it or at the end
    have hfirst := first_found hfrom hhere
    have hfit := length_of_prefix_drop hhere
    rw [along_found hhere hne, length_drop, replaceApart_found hhere hne]
    by_cases hbehind : s.i + from_.length < text.length
    · have hnext : (s.matchHere from_ to_).copyHere.advance.i = s.i + (from_.length + 1) := by
        rw [h.matchHere_found hi hfrom hhere]
        show (InPlaceState.copyHere _).i + 1 = _
        rw [(copyHere_grows _).1, Nat.add_assoc]
      rw [hnext]
      refine Or.inr ⟨_, h.round_here hi hfrom hlen hhere hbehind, ?_, ?_⟩
      · rw [drop_drop (i := from_.length + 1)]
      · rw [drop_drop]
        exact and_iff_right fun _ => ⟨hfit, fun _ => by omega⟩
    · refine Or.inl ⟨h.round_spoils hi hfrom hfirst fun hall => hbehind (hall.2 hhere), ?_⟩
      intro hinside
      have hmore := (hinside.1 hfirst).2 hhere
      omega
  -- another byte, at which `from` might start and not fit
  obtain ⟨c, cs, hcs⟩ := exists_cons_of_ne_nil hne
  have htail : text.drop (s.i + 1) = cs := by
    rw [← drop_drop, hcs, drop_one, tail_cons]
  have hnot : ¬ from_ <+: c :: cs := by rwa [← hcs]
  by_cases hlook : (text.drop s.i)[0]? = from_[0]? → s.i + from_.length ≤ text.length
  · obtain ⟨hheld, hnext⟩ := @Held.round_past _ _ to_ _ _ h hi hfrom hhere hlook
    refine Or.inr ⟨_, hheld, ?_, ?_⟩
    · rw [hnext, htail, hcs, replaceApart_missed hnot]
      rfl
    · rw [hnext, htail, hcs, along_missed hnot, ← hcs, length_drop]
      exact and_iff_right fun hfirst => ⟨by have hfit := hlook hfirst; omega, fun hpre => absurd hpre hhere⟩
  rw [Classical.not_imp] at hlook
  obtain ⟨hfirst, hlong⟩ := hlook
  refine Or.inl ⟨h.round_spoils hi hfrom hfirst fun hall => hlong hall.1, ?_⟩
  rw [hcs, along_missed hnot, ← hcs, length_drop]
  intro hinside
  have hfit := (hinside.1 hfirst).1
  omega

/-- What holds before each round, as long as the loop stays inside. -/
structure InPlaceAt (text from_ to_ : List UInt8) (s : InPlaceState) (out : List UInt8) : Prop where
  held : Held text s out
  rest : replaceApart from_ to_ text = out ++ replaceApart from_ to_ (text.drop s.i)
  inside : StaysInside from_ (text.drop s.i)

/-- **The loop that stays inside** makes up the text. -/
theorem loop_inside (hfrom : from_ ≠ []) (hlen : to_.length ≤ from_.length) (fuel : ℕ)
    (h : InPlaceAt text from_ to_ s out) (hfuel : text.length - s.i < fuel) :
    ∃ r, loop (inPlaceRound text.length from_ to_) fuel s = some r ∧
      Held text r (replaceApart from_ to_ text) := by
  refine loop_ends (I := fun s => ∃ out, InPlaceAt text from_ to_ s out) (fun s => text.length - s.i)
    ?_ fuel ⟨out, h⟩ hfuel
  rintro s ⟨out, hs⟩
  have hrest := hs.rest
  by_cases hi : s.i < text.length
  · have hgoes := (round_grows from_ to_ s).1
    refine Or.inl ⟨_, inPlaceRound_again hi, ?_, by omega⟩
    rcases hs.held.round hi hfrom hlen with ⟨-, hoff⟩ | ⟨piece, hheld, hpiece, hinside⟩
    · exact absurd hs.inside hoff
    · refine ⟨out ++ piece, hheld, ?_, hinside.mp hs.inside⟩
      rw [hrest, hpiece, append_assoc]
  · refine Or.inr ⟨s, inPlaceRound_done hi, ?_⟩
    rw [drop_of_length_le (not_lt.mp hi), replaceApart, append_nil] at hrest
    rw [hrest]
    exact hs.held

/-- **The loop that does not stay inside** reads or counts too far. -/
theorem loop_spoils (hfrom : from_ ≠ []) (hlen : to_.length ≤ from_.length) (fuel : ℕ)
    (h : Held text s out) (hoff : ¬ StaysInside from_ (text.drop s.i)) (hfuel : text.length - s.i < fuel) :
    ∃ r, loop (inPlaceRound text.length from_ to_) fuel s = some r ∧ Spoilt text r := by
  refine loop_ends
    (I := fun s => Spoilt text s ∨ (∃ out, Held text s out) ∧ ¬ StaysInside from_ (text.drop s.i))
    (fun s => text.length - s.i) ?_ fuel (Or.inr ⟨⟨out, h⟩, hoff⟩) hfuel
  intro s hs
  by_cases hi : s.i < text.length
  · have hgoes := (round_grows from_ to_ s).1
    refine Or.inl ⟨_, inPlaceRound_again hi, ?_, by omega⟩
    rcases hs with hspoilt | ⟨⟨out, hheld⟩, hoff⟩
    · exact Or.inl hspoilt.round
    · rcases @Held.round _ _ to_ _ _ hheld hi hfrom hlen with ⟨hspoilt, -⟩ | ⟨piece, hheld', -, hinside⟩
      · exact Or.inl hspoilt
      · exact Or.inr ⟨⟨_, hheld'⟩, mt hinside.mpr hoff⟩
  refine Or.inr ⟨s, inPlaceRound_done hi, ?_⟩
  rcases hs with hspoilt | ⟨-, hoff⟩
  · exact hspoilt
  exfalso
  apply hoff
  rw [drop_of_length_le (not_lt.mp hi), StaysInside, AlongScan]
  trivial

end Loop

/-! ## §4. The function. -/

/-- It returns what `q_strrep` returns, leaves the bytes that `q_strrep` leaves in a
    large enough buffer, and reads nothing behind the text. -/
def InPlaceAgrees (src : Memory) (text from_ to_ : List UInt8) : Prop :=
  ∀ (dest : Memory) (max_size : ℤ), (text.length : ℤ) ≤ max_size →
    ∃ r r', q_strrep_in_place src text.length from_ to_ = some r ∧
      q_strrep text from_ to_ dest max_size = some r' ∧ r.ret = r'.1 ∧
      r.src.read 0 r.ret.toNat = r'.2.read 0 r.ret.toNat ∧ r.reads ≤ text.length

/-- What the text has to be like. -/
structure InPlaceFits (text from_ to_ : List UInt8) : Prop where
  inside : StaysInside from_ text
  apart : NoneAdjacent from_ text ∨ from_ = to_

section Function

variable {text from_ to_ : List UInt8} {src : Memory}

/-- **THE FUNCTION** replaces the occurrences that stand apart, or it reads or counts
    bytes that the text does not have. -/
theorem q_strrep_in_place_cases (htext : text ≠ []) (hfrom : from_ ≠ []) (hto : to_ ≠ [])
    (hlen : to_.length ≤ from_.length) (hsrc : src.read 0 text.length = text) :
    ∃ r, q_strrep_in_place src text.length from_ to_ = some r ∧
      ((StaysInside from_ text ∧ r.ret = (replaceApart from_ to_ text).length ∧
        r.src.read 0 (replaceApart from_ to_ text).length = replaceApart from_ to_ text ∧
        r.reads ≤ text.length) ∨
      ¬ StaysInside from_ text ∧ (text.length < r.reads ∨ (text.length : ℤ) < r.ret)) := by
  have hempty : ∀ {l : List UInt8}, l ≠ [] → l.length ≠ 0 := fun h => mt length_eq_zero_iff.mp h
  have hstart : Held text { i := 0, j := 0, src := src, reads := 0 } [] := by
    refine ⟨Nat.zero_le _, rfl, le_rfl, rfl, fun k _ hk => ?_, Nat.zero_le _⟩
    have hat := congrArg (fun l => l[k]?) hsrc
    rw [← hat]
    show ((List.range text.length).map fun t => src (0 + t))[k]? = some (src k)
    rw [getElem?_map, getElem?_range hk, Option.map_some, Nat.zero_add]
  have hfuel : text.length - 0 < text.length + 1 := by omega
  unfold q_strrep_in_place
  rw [if_neg (by
    rintro (h | h | h | h)
    · exact hempty htext h
    · exact hempty hfrom h
    · exact hempty hto h
    · omega)]
  by_cases hinside : StaysInside from_ text
  · obtain ⟨r, hrun, hheld⟩ := loop_inside hfrom hlen (text.length + 1) ⟨hstart, rfl, hinside⟩ hfuel
    refine ⟨_, by rw [hrun]; rfl, Or.inl ⟨hinside, ?_, ?_, hheld.reads_le⟩⟩
    · show (r.j : ℤ) = _
      rw [hheld.j_eq]
    · show (r.src.write r.j [0]).read 0 _ = _
      rw [Memory.read_write_of_disjoint _ (Or.inl (by rw [hheld.j_eq]; omega)), hheld.written]
  · obtain ⟨r, hrun, hspoilt⟩ :=
      @loop_spoils text from_ to_ _ _ hfrom hlen (text.length + 1) hstart hinside hfuel
    refine ⟨_, by rw [hrun]; rfl, Or.inr ⟨hinside, ?_⟩⟩
    show text.length < r.reads ∨ (text.length : ℤ) < r.j
    exact hspoilt.imp id Int.ofNat_lt.mpr

/-- It agrees with `q_strrep` where it stays inside and keeps nothing that had to be
    replaced. -/
theorem q_strrep_in_place_agrees_iff_same (htext : text ≠ []) (hfrom : from_ ≠ []) (hto : to_ ≠ [])
    (hlen : to_.length ≤ from_.length) (hsrc : src.read 0 text.length = text) :
    InPlaceAgrees src text from_ to_ ↔
      StaysInside from_ text ∧ replaceApart from_ to_ text = replaceAll from_ to_ text := by
  have hpos := length_pos_of_ne_nil htext
  have hshort : (replaceAll from_ to_ text).length ≤ text.length := length_replaceAll_le_self hfrom hlen text
  have hrep : ∀ (dest : Memory) (max_size : ℤ), (text.length : ℤ) ≤ max_size →
      ∃ r', q_strrep text from_ to_ dest max_size = some r' ∧
        r'.1 = (replaceAll from_ to_ text).length ∧
        r'.2.read 0 (replaceAll from_ to_ text).length = replaceAll from_ to_ text := by
    intro dest max_size hmax
    obtain ⟨r', hrun, -, ⟨-, hret, hread⟩ | ⟨hlong, -⟩⟩ :=
      q_strrep_meets htext hfrom hto dest (by omega : 0 < max_size)
    · exact ⟨r', hrun, hret, hread⟩
    · omega
  obtain ⟨r, hrun, hcases⟩ := q_strrep_in_place_cases htext hfrom hto hlen hsrc
  constructor
  · intro hagrees
    obtain ⟨r₁, r', hrun₁, hstrrep, hret, hbytes, hreads⟩ := hagrees src text.length le_rfl
    obtain ⟨r'', hstrrep', hret', hread⟩ := hrep src text.length le_rfl
    rw [hrun, Option.some_inj] at hrun₁
    rw [hstrrep, Option.some_inj] at hstrrep'
    subst hrun₁
    subst hstrrep'
    rw [hret'] at hret
    rcases hcases with ⟨hinside, hlength, hapart, -⟩ | ⟨-, hfar | hfar⟩
    · refine ⟨hinside, ?_⟩
      -- both texts are what the two buffers hold
      rw [hret, Int.toNat_natCast, hread] at hbytes
      rw [hlength, Nat.cast_inj] at hret
      rw [← hapart, hret, hbytes]
    · omega
    · omega
  · rintro ⟨hinside, hsame⟩
    intro dest max_size hmax
    obtain ⟨r', hstrrep, hret', hread⟩ := hrep dest max_size hmax
    rcases hcases with ⟨-, hret, hbytes, hreads⟩ | ⟨hoff, -⟩
    · rw [hsame] at hret hbytes
      refine ⟨r, r', hrun, hstrrep, by rw [hret, hret'], ?_, hreads⟩
      rw [hret, Int.toNat_natCast, hbytes, hread]
    · exact absurd hinside hoff

/-- **WHEN IT AGREES WITH `q_strrep`**: where the loop looks for `from` it fits into the
    text and does not end it, and nothing that directly follows an occurrence is left
    alone.  Only where a beginning of a `from` that overlaps itself replaces it, the
    text may come out right although an occurrence has been left alone. -/
theorem q_strrep_in_place_agrees (htext : text ≠ []) (hfrom : from_ ≠ []) (hto : to_ ≠ [])
    (hlen : to_.length ≤ from_.length) (hsrc : src.read 0 text.length = text) :
    (InPlaceFits text from_ to_ → InPlaceAgrees src text from_ to_) ∧
    (¬ ShortensOverlap from_ to_ →
      (InPlaceAgrees src text from_ to_ ↔ InPlaceFits text from_ to_)) := by
  have hiff := q_strrep_in_place_agrees_iff_same htext hfrom hto hlen hsrc
  have hfits : InPlaceFits text from_ to_ → InPlaceAgrees src text from_ to_ := by
    rintro ⟨hinside, hnone | rfl⟩
    · exact hiff.mpr ⟨hinside, replaceApart_of_noneAdjacent hfrom hnone⟩
    · exact hiff.mpr ⟨hinside, by rw [replaceApart_self, replaceAll_self]⟩
  refine ⟨hfits, fun hplain => ⟨fun hagrees => ?_, hfits⟩⟩
  obtain ⟨hinside, hsame⟩ := hiff.mp hagrees
  refine ⟨hinside, ?_⟩
  rcases noneAdjacent_of_eq hfrom hlen text hsame with hnone | hself | hshortens
  · exact Or.inl hnone
  · exact Or.inr hself
  · exact absurd hshortens hplain

end Function

/-- `"xaby"` behind which anything may be. -/
theorem q_strrep_in_place_agrees_xaby :
    InPlaceAgrees (fun k => [120, 97, 98, 121].getD k 255) [120, 97, 98, 121] [97, 98] [99] := by
  refine (q_strrep_in_place_agrees (by decide) (by decide) (by decide) (by decide) (by decide)).1
    ⟨?_, Or.inl ?_⟩
  · simp [StaysInside, AlongScan]
  · simp [NoneAdjacent, AlongScan]

/-- **An occurrence at the end** is counted with a byte that the text does not have. -/
theorem q_strrep_in_place_end : ¬ ∀ (src : Memory) (text from_ to_ : List UInt8), text ≠ [] →
    from_ ≠ [] → to_ ≠ [] → to_.length ≤ from_.length → src.read 0 text.length = text →
    InPlaceAgrees src text from_ to_ := by
  intro h
  obtain ⟨r, r', hrun, hstrrep, hret, -, -⟩ :=
    h (fun _ => 97) [97] [97] [98] (by decide) (by decide) (by decide) (by decide) (by decide)
      (fun _ => 0) 1 (by decide)
  have hlong : r.ret = 2 := by
    cases hrun
    decide
  have hone : r'.1 = 1 := by
    cases hstrrep
    decide
  rw [hlong, hone] at hret
  exact absurd hret (by decide)

end KalavaPir.Common
