/-
  KalavaPir.Common.QFindKMP — the search for a string, `common/qfunc.h`.

  `q_find` tries all places; `q_find_KMP` keeps what has matched and follows the
  table `next` on a mismatch.  `q_next_KMP` builds the table, of one cell more
  than the pattern has characters, with the cells that it has already filled.
-/
import KalavaPir.Framework.Loop
import KalavaPir.Framework.Borders

namespace KalavaPir.Common

open KalavaPir.Framework

/-! ## §1. The functions. -/

/-- `for(j=0; j<patlen; j++) if(src[i+j]!=pat[j]) break;` with the number of rounds left. -/
def matchFrom (src pat : List UInt8) (i : ℕ) : ℕ → ℕ → ℕ
  | 0, j => j
  | k + 1, j => if src[i + j]? ≠ pat[j]? then j else matchFrom src pat i k (j + 1)

/-- `for(i=0; i<=srclen-patlen; i++)`, with the number of rounds left. -/
def findFrom (src pat : List UInt8) : ℕ → ℕ → ℤ
  | 0, _ => -1
  | k + 1, i =>
    if matchFrom src pat i pat.length 0 = pat.length then i else findFrom src pat k (i + 1)

/-- qfunc.h:118 -/
def q_find (src pat : List UInt8) : ℤ := findFrom src pat (src.length + 1 - pat.length) 0

/-- The variables of the search. -/
structure FindState where
  posP : ℤ
  posS : ℕ

/-- A round of `while(posP<patlen && posS<srclen)`; the pattern and the table are
    not read before their begin. -/
def findRound (src pat : List UInt8) (next : ℕ → ℤ) (s : FindState) : Option (LoopStep FindState ℤ) :=
  if s.posP < pat.length ∧ s.posS < src.length then
    if s.posP = -1 then some (.again { posP := s.posP + 1, posS := s.posS + 1 })
    else if s.posP < 0 then none
    else if pat[s.posP.toNat]? = src[s.posS]? then
      some (.again { posP := s.posP + 1, posS := s.posS + 1 })
    else some (.again { posP := next s.posP.toNat, posS := s.posS })
  else some (.done (if s.posP < pat.length then -1 else s.posS - pat.length))

/-- qfunc.h:131 -/
def q_find_KMP (fuel : ℕ) (src pat : List UInt8) (next : ℕ → ℤ) (k : ℕ) : Option ℤ :=
  loop (findRound src pat next) fuel { posP := 0, posS := k }

/-- The variables of `q_next_KMP`. -/
structure NextState where
  i : ℕ
  j : ℤ
  next : ℕ → ℤ

/-- A round of `while(i<srclen)`. -/
def nextRound (src : List UInt8) (s : NextState) : Option (LoopStep NextState (ℕ → ℤ)) :=
  if s.i < src.length then
    if s.j = -1 then
      some (.again { i := s.i + 1, j := s.j + 1, next := Function.update s.next (s.i + 1) (s.j + 1) })
    else if s.j < 0 then none
    else if src[s.i]? = src[s.j.toNat]? then
      some (.again { i := s.i + 1, j := s.j + 1, next := Function.update s.next (s.i + 1) (s.j + 1) })
    else some (.again { s with j := s.next s.j.toNat })
  else some (.done s.next)

/-- qfunc.h:150 -/
def q_next_KMP (fuel : ℕ) (src : List UInt8) (next : ℕ → ℤ) : Option (ℕ → ℤ) :=
  loop (nextRound src) fuel { i := 0, j := -1, next := Function.update next 0 (-1) }

/-! ## §2. The search at all places. -/

section Find

variable {src pat : List UInt8}

theorem matchFrom_eq_iff {i : ℕ} (k : ℕ) : ∀ {j : ℕ}, j + k = pat.length →
    (matchFrom src pat i k j = pat.length ↔ ∀ t, j ≤ t → t < pat.length → src[i + t]? = pat[t]?) := by
  induction k with
  | zero =>
    intro j hj
    refine iff_of_true hj fun t ht ht' => ?_
    omega
  | succ k ih =>
    intro j hj
    rw [matchFrom]
    by_cases hne : src[i + j]? ≠ pat[j]?
    · rw [if_pos hne]
      refine iff_of_false (by omega) fun h => hne (h j le_rfl (by omega))
    rw [if_neg hne, ih (by omega)]
    constructor
    · intro h t ht ht'
      by_cases heq : t = j
      · rw [heq]
        exact not_not.mp hne
      · exact h t (by omega) ht'
    · exact fun h t ht ht' => h t (by omega) ht'

theorem matchFrom_iff (i : ℕ) :
    matchFrom src pat i pat.length 0 = pat.length ↔ pat <+: src.drop i := by
  rw [matchFrom_eq_iff pat.length (Nat.zero_add _), prefix_drop_iff]
  exact ⟨fun h t ht => h t (Nat.zero_le t) ht, fun h t _ ht => h t ht⟩

theorem findFrom_cases (k : ℕ) : ∀ i,
    (∃ q : ℕ, findFrom src pat k i = q ∧ pat <+: src.drop q ∧ ∀ r, i ≤ r → r < q → ¬ pat <+: src.drop r) ∨
      findFrom src pat k i = -1 ∧ ∀ r, i ≤ r → r < i + k → ¬ pat <+: src.drop r := by
  induction k with
  | zero => exact fun i => Or.inr ⟨rfl, fun r _ _ => by omega⟩
  | succ k ih =>
    intro i
    rw [findFrom]
    by_cases hhere : matchFrom src pat i pat.length 0 = pat.length
    · rw [if_pos hhere]
      exact Or.inl ⟨i, rfl, (matchFrom_iff i).mp hhere, fun r _ _ => by omega⟩
    · rw [if_neg hhere]
      have hnot : ¬ pat <+: src.drop i := mt (matchFrom_iff i).mpr hhere
      exact search_step hnot (ih (i + 1))

theorem q_find_of_first {p : ℕ} (hp : p ≤ src.length - pat.length) (hle : pat.length ≤ src.length)
    (h : FirstAt pat src p) : q_find src pat = p := by
  unfold q_find
  obtain ⟨q, hq, hoccurs, hfirst⟩ | ⟨-, hno⟩ := @findFrom_cases src pat (src.length + 1 - pat.length) 0
  · have hpq : p = q := by
      rcases Nat.lt_trichotomy p q with hlt | heq | hlt
      · exact absurd h.occurs (hfirst p (Nat.zero_le p) hlt)
      · exact heq
      · exact absurd hoccurs (h.first q hlt)
    rw [hq, hpq]
  · exact absurd h.occurs (hno p (Nat.zero_le p) (by omega))

theorem q_find_of_none (h : ∀ q, q + pat.length ≤ src.length → ¬ pat <+: src.drop q) :
    q_find src pat = -1 := by
  obtain ⟨q, hq, hoccurs, hfirst⟩ | ⟨hnone, -⟩ := @findFrom_cases src pat (src.length + 1 - pat.length) 0
  · by_cases hempty : pat.length = 0
    · -- the empty pattern occurs everywhere
      have hzero : pat = [] := List.length_eq_zero_iff.mp hempty
      exact absurd (by rw [hzero]; exact List.nil_prefix) (h 0 (by omega))
    · have hle := length_of_prefix_drop hoccurs
      exact absurd hoccurs (h q (by omega))
  · exact hnone

end Find

/-! ## §3. The table. -/

section Table

variable {src : List UInt8} {s : NextState}

/-- **The invariant**: the cells up to `i` hold the longest borders, and `j` is
    the candidate for the next one. -/
structure NextAt (src : List UInt8) (s : NextState) : Prop where
  le : s.i ≤ src.length
  filled : ∀ q ≤ s.i, IsNext src q (s.next q)
  candidate : Candidate src s.i s.j

/-- What the rounds lower. -/
def NextState.rank (src : List UInt8) (s : NextState) : ℕ := 2 * (src.length - s.i) + (s.j + 1).toNat

theorem NextAt.fill (h : NextAt src s) (hlt : s.i < src.length) (hnext : IsNext src (s.i + 1) (s.j + 1)) :
    NextAt src { i := s.i + 1, j := s.j + 1, next := Function.update s.next (s.i + 1) (s.j + 1) } where
  le := hlt
  filled := by
    intro q hq
    dsimp only at hq ⊢
    by_cases heq : q = s.i + 1
    · rw [heq, Function.update_self]
      exact hnext
    · rw [Function.update_of_ne heq]
      exact h.filled q (by omega)
  candidate := hnext.candidate

/-- **A ROUND** fills a cell, or moves on to a shorter border. -/
theorem NextAt.round (h : NextAt src s) :
    (∃ s', nextRound src s = some (.again s') ∧ NextAt src s' ∧ s'.rank src < s.rank src) ∨
      ∃ next, nextRound src s = some (.done next) ∧ ∀ q ≤ src.length, IsNext src q (next q) := by
  have hle := h.le
  unfold nextRound
  by_cases hlt : s.i < src.length
  · rw [if_pos hlt]
    refine Or.inl ?_
    by_cases hnone : s.j = -1
    · -- no border is left
      rw [if_pos hnone]
      have hcand := h.candidate
      rw [hnone] at hcand
      refine ⟨_, rfl, h.fill hlt (by rw [hnone]; exact hcand.restart), ?_⟩
      unfold NextState.rank
      dsimp only
      omega
    obtain ⟨b, hb, hborder⟩ := h.candidate.border.resolve_left hnone
    have hcand := h.candidate
    rw [hb] at hcand
    have hlong := hborder.lt
    rw [if_neg hnone, if_neg (by omega), hb, Int.toNat_natCast]
    by_cases hsame : src[s.i]? = src[b]?
    · rw [if_pos hsame, ← hb]
      refine ⟨_, rfl, h.fill hlt (by rw [hb]; exact hcand.extend hborder hsame.symm), ?_⟩
      unfold NextState.rank
      dsimp only
      omega
    -- `j=next[j]` is less, which is why the rounds end
    rw [if_neg hsame]
    have hcell := h.filled b (by omega)
    refine ⟨_, rfl, ⟨hle, h.filled, hcand.fall hborder (Ne.symm hsame) hcell⟩, ?_⟩
    have hless := hcell.lt
    unfold NextState.rank
    dsimp only
    omega
  · rw [if_neg hlt]
    refine Or.inr ⟨_, rfl, fun q hq => h.filled q ?_⟩
    omega

/-- **THE TABLE** holds the longest borders. -/
theorem q_next_KMP_spec (src : List UInt8) (next : ℕ → ℤ) :
    ∃ fuel next', q_next_KMP fuel src next = some next' ∧
      ∀ q ≤ src.length, IsNext src q (next' q) := by
  have hstart : NextAt src { i := 0, j := -1, next := Function.update next 0 (-1) } := by
    have hzero : IsNext src 0 (-1) := Or.inl ⟨rfl, rfl⟩
    refine ⟨Nat.zero_le _, fun q hq => ?_, hzero.candidate⟩
    obtain rfl : q = 0 := Nat.le_zero.mp hq
    exact hzero
  obtain ⟨next', hrun, htable⟩ := loop_ends (NextState.rank src) (fun s hs => NextAt.round hs) _ hstart
    (Nat.lt_succ_self _)
  exact ⟨_, next', hrun, htable⟩

end Table

/-! ## §4. The search with the table. -/

section Search

variable {src pat : List UInt8} {next : ℕ → ℤ} {s : FindState}

/-- What every round makes smaller. -/
def FindState.rank (src : List UInt8) (s : FindState) : ℕ := 2 * (src.length - s.posS) + (s.posP + 1).toNat

/-- **A ROUND** lays the pattern against the text further on, or ends the search. -/
theorem findRound_aligned (htable : ∀ q ≤ pat.length, IsNext pat q (next q))
    (h : Aligned pat src s.posP s.posS ∧ s.posS ≤ src.length) :
    (∃ s', findRound src pat next s = some (.again s') ∧
      (Aligned pat src s'.posP s'.posS ∧ s'.posS ≤ src.length) ∧ s'.rank src < s.rank src) ∨
    ∃ r, findRound src pat next s = some (.done r) ∧ r = q_find src pat := by
  obtain ⟨halign, hle⟩ := h
  unfold findRound
  by_cases hmore : s.posP < pat.length ∧ s.posS < src.length
  · rw [if_pos hmore]
    refine Or.inl ?_
    by_cases hnone : s.posP = -1
    · -- the pattern begins behind this character
      rw [if_pos hnone]
      rw [hnone] at halign
      refine ⟨_, rfl, ⟨by rw [hnone]; exact halign.restart, hmore.2⟩, ?_⟩
      unfold FindState.rank
      dsimp only
      omega
    obtain ⟨b, hb, -, hlong, -⟩ := halign.prefix_.resolve_left hnone
    rw [hb] at halign
    have hlt : b < pat.length := by omega
    rw [if_neg hnone, if_neg (by omega), hb, Int.toNat_natCast]
    by_cases hsame : pat[b]? = src[s.posS]?
    · rw [if_pos hsame]
      refine ⟨_, rfl, ⟨halign.extend hlt hsame.symm, hmore.2⟩, ?_⟩
      unfold FindState.rank
      dsimp only
      omega
    -- the pattern is moved on, to its longest border
    rw [if_neg hsame]
    have hcell := htable b hlong
    refine ⟨_, rfl, ⟨halign.fall hlt (Ne.symm hsame) hcell, hle⟩, ?_⟩
    have hless := hcell.lt
    unfold FindState.rank
    dsimp only
    omega
  · rw [if_neg hmore]
    refine Or.inr ⟨_, rfl, ?_⟩
    have hbefore := halign.before
    by_cases hshort : s.posP < pat.length
    · -- the text has ended before the pattern
      rw [if_pos hshort]
      refine (q_find_of_none fun q hq => hbefore q ?_).symm
      omega
    -- the whole pattern stands there
    obtain ⟨b, hb, hbS, hlong, hprefix⟩ := halign.prefix_.resolve_left (by omega)
    obtain rfl : b = pat.length := by omega
    have hfirst : FirstAt pat src (s.posS - pat.length) :=
      ⟨prefix_drop_iff.mpr hprefix, fun q hq => hbefore q (by omega)⟩
    rw [q_find_of_first (by omega) (by omega) hfirst]
    omega

/-- **With the table** the search returns what `q_find` returns. -/
theorem q_find_KMP_spec (src : List UInt8) (htable : ∀ q ≤ pat.length, IsNext pat q (next q)) :
    ∃ fuel, q_find_KMP fuel src pat next 0 = some (q_find src pat) := by
  have hstart : Aligned pat src ({ posP := 0, posS := 0 } : FindState).posP 0 ∧ 0 ≤ src.length :=
    ⟨aligned_start pat src, Nat.zero_le _⟩
  obtain ⟨r, hrun, rfl⟩ := loop_ends (FindState.rank src)
    (I := fun s : FindState => Aligned pat src s.posP s.posS ∧ s.posS ≤ src.length)
    (fun s hs => findRound_aligned (s := s) htable hs) _ hstart (Nat.lt_succ_self _)
  exact ⟨_, hrun⟩

end Search

/-- **BOTH SEARCHES**, for all strings: the table is built, and with it the search
    returns what `q_find` returns. -/
theorem q_find_KMP_eq_q_find (src pat : List UInt8) (next : ℕ → ℤ) :
    ∃ fuel next', q_next_KMP fuel pat next = some next' ∧
      ∃ fuel', q_find_KMP fuel' src pat next' 0 = some (q_find src pat) := by
  obtain ⟨fuel, next', hrun, htable⟩ := q_next_KMP_spec pat next
  exact ⟨fuel, next', hrun, q_find_KMP_spec src htable⟩

end KalavaPir.Common
