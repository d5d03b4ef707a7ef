/-
  KalavaPir.Common.QRepairFile — `q_repair_file` of `common/qglobal.h`.

  A file that was not closed properly is cut behind the last end mark in it.
  The function reads it backwards in blocks of 1 MiB and looks for the mark in
  each block, from the block's end to its begin; a mark that begins in one block
  and ends in the next one is in neither of them.
-/
import KalavaPir.Framework.Loop
import KalavaPir.Framework.Occurrences

namespace KalavaPir.Common

open KalavaPir.Framework List Option

/-! ## §1. The function (qglobal.h:858). -/

/-- `1<<20`. -/
def REPAIR_BLOCK : ℕ := 1048576

/-- Which of the calls succeed: the test that the file is there and its size,
    the buffer, `fopen`, `fread` at each position, and `ftruncate`. -/
structure RepairCalls where
  access : Bool
  buffer : Bool
  fopen : Bool
  fread : ℕ → Bool
  ftruncate : Bool

/-- All of them do. -/
def RepairCalls.ok : RepairCalls := ⟨true, true, true, fun _ => true, true⟩

/-- The inner `for`, with the number of rounds left: how far it went back from
    `beg_pos`. -/
def scanBack (read_buf end_flag : List UInt8) (beg_pos : ℕ) : ℕ → ℕ → ℕ
  | 0, i => i
  | n + 1, i =>
    if (read_buf.drop (beg_pos - i)).take end_flag.length = end_flag then i
    else scanBack read_buf end_flag beg_pos n (i + 1)

/-- A round of `for(;;)` at `file_len`; it ends with `real_len`, or without one
    when the file cannot be read. -/
def repairRound (fread : ℕ → Bool) (content end_flag : List UInt8) (file_len : ℕ) :
    Option (LoopStep ℕ (Option ℕ)) :=
  let read_len := if file_len < REPAIR_BLOCK then file_len else REPAIR_BLOCK
  let file_len := file_len - read_len
  if fread file_len = false then some (.done none)
  else
    let read_buf := (content.drop file_len).take read_len
    let loop_num : ℤ := (read_len : ℤ) - end_flag.length + 1
    if loop_num ≤ 0 then some (.done (some 0))
    else
      let i := scanBack read_buf end_flag (read_len - end_flag.length) loop_num.toNat 0
      -- `cur_pos+loop_num!=beg_pos`
      if i ≠ loop_num.toNat then some (.done (some (file_len + read_len - i)))
      else if file_len ≤ 0 then some (.done (some 0))
      else some (.again file_len)

/-- What a call leaves: its result, the file, and `*repair_len`. -/
structure Repaired where
  ret : ℤ
  file : List UInt8
  repair_len : Option ℕ
  deriving DecidableEq

/-- `q_repair_file(file, end_flag, end_flag_len, repair_len)`. -/
def q_repair_file (calls : RepairCalls) (content end_flag : List UInt8) : Option Repaired :=
  if calls.access = false then some ⟨-1, content, none⟩
  else if content.length = 0 then some ⟨0, content, some 0⟩
  else if calls.buffer = false then some ⟨-1, content, none⟩
  else if calls.fopen = false then some ⟨-1, content, none⟩
  else
    match loop (repairRound calls.fread content end_flag) (content.length + 1) content.length with
    | none => none
    | some none => some ⟨-1, content, none⟩
    | some (some real_len) =>
      if calls.ftruncate = false then some ⟨-1, content, none⟩
      else some ⟨0, content.take real_len, some real_len⟩

/-! ## §2. What it is for. -/

/-- The file cut behind its last end mark: this many bytes of it. -/
def RepairedLength (content end_flag : List UInt8) (n : ℕ) : Prop :=
  (∃ p, LastAt end_flag content p ∧ n = p + end_flag.length) ∨
    ((∀ p, ¬ end_flag <+: content.drop p) ∧ n = 0)

/-- The call cuts the file there and reports the length. -/
def Repairs (content end_flag : List UInt8) : Prop :=
  ∃ n, RepairedLength content end_flag n ∧
    q_repair_file .ok content end_flag = some ⟨0, content.take n, some n⟩

/-- Bytes `p` to `p + n` of a file cross a border of its blocks, which are
    counted from the end of the file. -/
def Straddles (len n p : ℕ) : Prop :=
  ∃ k, p < len - k * REPAIR_BLOCK ∧ len - k * REPAIR_BLOCK < p + n

/-! ## §3. One block. -/

section Block

variable {content end_flag : List UInt8}

/-- **The search in a block** goes back to the last mark in it, or over all of
    it. -/
theorem scanBack_spec (read_buf end_flag : List UInt8) (beg_pos n : ℕ) : ∀ i,
    (∃ r, scanBack read_buf end_flag beg_pos n i = r ∧ i ≤ r ∧ r < i + n ∧
      (read_buf.drop (beg_pos - r)).take end_flag.length = end_flag ∧
      ∀ j, i ≤ j → j < r → (read_buf.drop (beg_pos - j)).take end_flag.length ≠ end_flag) ∨
    (scanBack read_buf end_flag beg_pos n i = i + n ∧
      ∀ j, i ≤ j → j < i + n → (read_buf.drop (beg_pos - j)).take end_flag.length ≠ end_flag) := by
  induction n with
  | zero =>
    intro i
    exact Or.inr ⟨rfl, fun j hj hj' => by omega⟩
  | succ n ih =>
    intro i
    rw [scanBack]
    by_cases hhere : (read_buf.drop (beg_pos - i)).take end_flag.length = end_flag
    · rw [if_pos hhere]
      exact Or.inl ⟨i, rfl, le_rfl, by omega, hhere, fun j hj hj' => by omega⟩
    rw [if_neg hhere]
    have hfirst : ∀ j, i ≤ j → j = i ∨ i + 1 ≤ j := by omega
    rcases ih (i + 1) with ⟨r, hr, hle, hlt, hmatch, hno⟩ | ⟨hr, hno⟩
    · refine Or.inl ⟨r, hr, by omega, by omega, hmatch, fun j hj hj' => ?_⟩
      rcases hfirst j hj with heq | hj
      · rw [heq]
        exact hhere
      · exact hno j hj hj'
    refine Or.inr ⟨by rw [hr]; omega, fun j hj hj' => ?_⟩
    rcases hfirst j hj with heq | hj
    · rw [heq]
      exact hhere
    · exact hno j hj (by omega)

theorem mark_in_block {lo len q : ℕ} (hq : q + end_flag.length ≤ len) :
    (((content.drop lo).take len).drop q).take end_flag.length = end_flag
      ↔ end_flag <+: content.drop (lo + q) := by
  rw [drop_take, take_take, Nat.min_eq_left (by omega), drop_drop]
  rw [prefix_iff_eq_take]
  exact eq_comm

/-- What a round finds in the block that ends at `m` and begins at `lo`. -/
theorem block_search (content end_flag : List UInt8) (m lo : ℕ) (hlo : lo ≤ m) (hfit : end_flag.length ≤ m - lo) :
    (∃ i p, scanBack ((content.drop lo).take (m - lo)) end_flag (m - lo - end_flag.length)
        (m - lo - end_flag.length + 1) 0 = i ∧ i < m - lo - end_flag.length + 1 ∧
      m - i = p + end_flag.length ∧ lo ≤ p ∧ end_flag <+: content.drop p ∧
      ∀ q, lo ≤ q → q + end_flag.length ≤ m → end_flag <+: content.drop q → q ≤ p) ∨
    (scanBack ((content.drop lo).take (m - lo)) end_flag (m - lo - end_flag.length)
        (m - lo - end_flag.length + 1) 0 = m - lo - end_flag.length + 1 ∧
      ∀ q, lo ≤ q → q + end_flag.length ≤ m → ¬ end_flag <+: content.drop q) := by
  -- how far back a mark is from the last place in the block
  have hplace : ∀ q, lo ≤ q → q + end_flag.length ≤ m →
      ∃ j, j < m - lo - end_flag.length + 1 ∧ m - lo - end_flag.length - j = q - lo ∧
        q + j + end_flag.length = m := by
    intro q hq hend
    exact ⟨m - end_flag.length - q, by omega, by omega, by omega⟩
  have hmark : ∀ j, j < m - lo - end_flag.length + 1 → ∀ q, lo + (m - lo - end_flag.length - j) = q →
      ((((content.drop lo).take (m - lo)).drop (m - lo - end_flag.length - j)).take end_flag.length = end_flag
        ↔ end_flag <+: content.drop q) := by
    intro j hj q hq
    rw [← hq]
    exact mark_in_block (by omega)
  rcases scanBack_spec ((content.drop lo).take (m - lo)) end_flag (m - lo - end_flag.length)
    (m - lo - end_flag.length + 1) 0 with ⟨i, hi, -, hlt, hmatch, hno⟩ | ⟨hi, hno⟩
  · rw [Nat.zero_add] at hlt
    refine Or.inl ⟨i, m - end_flag.length - i, hi, hlt, by omega, by omega,
      (hmark i hlt _ (by omega)).mp hmatch, fun q hq hend hoccurs => ?_⟩
    obtain ⟨j, hj, hback, hsum⟩ := hplace q hq hend
    by_contra hlater
    exact hno j (Nat.zero_le j) (by omega) ((hmark j hj q (by omega)).mpr hoccurs)
  · rw [Nat.zero_add] at hi hno
    refine Or.inr ⟨hi, fun q hq hend hoccurs => ?_⟩
    obtain ⟨j, hj, hback, hsum⟩ := hplace q hq hend
    exact hno j (Nat.zero_le j) hj ((hmark j hj q (by omega)).mpr hoccurs)

end Block

/-! ## §4. The loop. -/

section File

variable {content end_flag : List UInt8}

/-- The marks that lie within one block all end at or before `m`, where a block
    ends. -/
structure BeforeBlock (content end_flag : List UInt8) (m : ℕ) : Prop where
  pos : 0 < m
  border : ∃ k, m = content.length - k * REPAIR_BLOCK
  marks : ∀ q, end_flag <+: content.drop q → ¬ Straddles content.length end_flag.length q →
    q + end_flag.length ≤ m

/-- The length behind the last mark that lies within one block. -/
def LengthFound (content end_flag : List UInt8) (n : ℕ) : Prop :=
  (∃ p, n = p + end_flag.length ∧ end_flag <+: content.drop p ∧
    ¬ Straddles content.length end_flag.length p ∧
    ∀ q, end_flag <+: content.drop q → ¬ Straddles content.length end_flag.length q → q ≤ p) ∨
  (n = 0 ∧ ∀ q, end_flag <+: content.drop q → Straddles content.length end_flag.length q)

theorem not_straddles_of_block {m lo n p : ℕ} {len k : ℕ} (hm : m = len - k * REPAIR_BLOCK)
    (hlo : lo = m - REPAIR_BLOCK) (hp : lo ≤ p) (hend : p + n ≤ m) : ¬ Straddles len n p := by
  intro h
  obtain ⟨j, hbefore, hafter⟩ := h
  rcases Nat.lt_or_ge k j with hkj | hkj
  · have hmul : (k + 1) * REPAIR_BLOCK ≤ j * REPAIR_BLOCK := Nat.mul_le_mul_right _ hkj
    rw [Nat.succ_mul] at hmul
    omega
  · have hmul : j * REPAIR_BLOCK ≤ k * REPAIR_BLOCK := Nat.mul_le_mul_right _ hkj
    omega

/-- **ONE ROUND** finds the last mark within one block, or goes on at the block's
    begin. -/
theorem repairRound_spec (hlen : end_flag.length ≤ REPAIR_BLOCK) (hflag : end_flag ≠ []) {m : ℕ}
    (h : BeforeBlock content end_flag m) :
    (∃ m', repairRound (fun _ => true) content end_flag m = some (.again m') ∧
      BeforeBlock content end_flag m' ∧ m' < m) ∨
    ∃ r, repairRound (fun _ => true) content end_flag m = some (.done r) ∧
      ∃ n, r = some n ∧ LengthFound content end_flag n := by
  have hpos := h.pos
  have hnonempty := length_pos_of_ne_nil hflag
  obtain ⟨k, hk⟩ := h.border
  obtain ⟨read_len, hread⟩ : ∃ r, r = if m < REPAIR_BLOCK then m else REPAIR_BLOCK := ⟨_, rfl⟩
  have hread_len : read_len ≤ m ∧ 0 < read_len ∧ m - read_len = m - REPAIR_BLOCK := by
    rw [hread]
    split <;> omega
  obtain ⟨lo, hlo⟩ : ∃ lo, lo = m - read_len := ⟨_, rfl⟩
  have hback : read_len = m - lo := by omega
  have hborder : lo = m - REPAIR_BLOCK := by rw [hlo, hread_len.2.2]
  unfold repairRound
  dsimp only
  rw [← hread, ← hlo, if_neg (by simp)]
  by_cases hshort : (read_len : ℤ) - end_flag.length + 1 ≤ 0
  · -- only the first block of the file is shorter than a mark
    rw [if_pos hshort]
    refine Or.inr ⟨_, rfl, 0, rfl, Or.inr ⟨rfl, fun q hq => ?_⟩⟩
    by_contra hcross
    have hend := h.marks q hq hcross
    omega
  have hnum : ((read_len : ℤ) - end_flag.length + 1).toNat = m - lo - end_flag.length + 1 := by omega
  rw [if_neg hshort, hnum, hback]
  rcases block_search content end_flag m lo (by omega) (by omega) with ⟨i, p, hi, hlt, hp, hlop, hoccurs, hlast⟩ | ⟨hi, hno⟩
  · rw [hi, if_pos (by omega)]
    refine Or.inr ⟨_, rfl, m - i, by congr 1; omega, Or.inl ⟨p, hp, hoccurs, ?_, ?_⟩⟩
    · exact not_straddles_of_block hk hborder hlop (by omega)
    · intro q hq hcross
      have hend := h.marks q hq hcross
      rcases Nat.lt_or_ge q lo with hqlo | hqlo
      · omega
      · exact hlast q hqlo hend hq
  rw [hi, if_neg (by omega)]
  -- no mark in this block: those that do not cross its begin end before it
  have hmarks : ∀ q, end_flag <+: content.drop q →
      ¬ Straddles content.length end_flag.length q → q + end_flag.length ≤ lo := by
    intro q hq hcross
    have hend := h.marks q hq hcross
    have hqlo : q < lo := by
      by_contra hge
      exact hno q (by omega) hend hq
    by_contra hover
    apply hcross
    refine ⟨k + 1, ?_, ?_⟩
    · rw [Nat.succ_mul]
      omega
    · rw [Nat.succ_mul]
      omega
  by_cases hzero : lo ≤ 0
  · rw [if_pos hzero]
    refine Or.inr ⟨_, rfl, 0, rfl, Or.inr ⟨rfl, fun q hq => ?_⟩⟩
    by_contra hcross
    have hend := hmarks q hq hcross
    omega
  · rw [if_neg hzero]
    refine Or.inl ⟨lo, rfl, ⟨by omega, ⟨k + 1, ?_⟩, hmarks⟩, by omega⟩
    rw [Nat.succ_mul]
    omega

/-- **THE LOOP ENDS**, behind the last mark within one block. -/
theorem repairLoop_ends (hlen : end_flag.length ≤ REPAIR_BLOCK) (hflag : end_flag ≠ [])
    (hcontent : content ≠ []) :
    ∃ r, loop (repairRound (fun _ => true) content end_flag) (content.length + 1) content.length = some r ∧
      ∃ n, r = some n ∧ LengthFound content end_flag n := by
  apply loop_ends (I := BeforeBlock content end_flag) id
  · intro m hm
    exact repairRound_spec hlen hflag hm
  · refine ⟨length_pos_of_ne_nil hcontent, ⟨0, by omega⟩, ?_⟩
    intro q hq _
    exact add_length_le_of_occurs hflag hq
  · exact Nat.lt_succ_self _

/-! ## §5. The file. -/

/-- What the call leaves when all calls of the system succeed. -/
theorem q_repair_file_ok (content : List UInt8) (hlen : end_flag.length ≤ REPAIR_BLOCK) (hflag : end_flag ≠ []) :
    ∃ n, LengthFound content end_flag n ∧
      q_repair_file .ok content end_flag = some ⟨0, content.take n, some n⟩ := by
  by_cases hcontent : content = []
  · refine ⟨0, Or.inr ⟨rfl, fun q hq => ?_⟩, ?_⟩
    · rw [hcontent, drop_nil, prefix_nil] at hq
      exact absurd hq hflag
    · rw [hcontent]
      rfl
  obtain ⟨r, hloop, n, hr, hfound⟩ := repairLoop_ends hlen hflag hcontent
  refine ⟨n, hfound, ?_⟩
  unfold q_repair_file
  rw [if_neg (by decide), if_neg (by simpa using hcontent), if_neg (by decide), if_neg (by decide)]
  have hfread : RepairCalls.ok.fread = fun _ => true := rfl
  rw [hfread, hloop, hr]
  rfl

/-- A call that reports an error leaves the file alone. -/
theorem q_repair_file_error {calls : RepairCalls} {r : Repaired}
    (h : q_repair_file calls content end_flag = some r) (hret : r.ret ≠ 0) : r = ⟨-1, content, none⟩ := by
  unfold q_repair_file at h
  split at h
  · exact (some_inj.mp h).symm
  split at h
  · rw [← some_inj.mp h] at hret
    exact absurd rfl hret
  split at h
  · exact (some_inj.mp h).symm
  split at h
  · exact (some_inj.mp h).symm
  split at h
  · exact absurd h (by simp)
  · exact (some_inj.mp h).symm
  · split at h
    · exact (some_inj.mp h).symm
    · rw [← some_inj.mp h] at hret
      exact absurd rfl hret

/-- **THE FILE IS REPAIRED** exactly when its last end mark, if there is one,
    lies within one block. -/
theorem q_repair_file_repairs_iff (content : List UInt8) (hflag : end_flag ≠ [])
    (hlen : end_flag.length ≤ REPAIR_BLOCK) :
    Repairs content end_flag ↔
      ∀ p, LastAt end_flag content p → ¬ Straddles content.length end_flag.length p := by
  obtain ⟨n, hfound, hcall⟩ := q_repair_file_ok content hlen hflag
  have hpos := List.length_pos_of_ne_nil hflag
  constructor
  · intro h p hp hcross
    obtain ⟨n', hlength, hcall'⟩ := h
    rw [hcall, Option.some_inj] at hcall'
    have hn : n = n' := by injection hcall' with _ _ heq; exact Option.some_inj.mp heq
    rw [← hn] at hlength
    -- the length is that of the mark at `p`, and no mark across a border has it
    rcases hlength with ⟨p', hp', hnp⟩ | ⟨hnone, -⟩
    · have hsame : p' = p := Nat.le_antisymm (hp.last p' hp'.occurs) (hp'.last p hp.occurs)
      rcases hfound with ⟨q, hnq, -, hwithin, -⟩ | ⟨hzero, -⟩
      · have hq : q = p := by omega
        rw [hq] at hwithin
        exact hwithin hcross
      · omega
    · exact hnone p hp.occurs
  · intro h
    refine ⟨n, ?_, hcall⟩
    by_cases hsome : ∃ p, end_flag <+: content.drop p
    · obtain ⟨p, hp⟩ := hsome
      obtain ⟨q, hq⟩ := exists_lastAt hflag hp
      rcases hfound with ⟨q', hnq, hoccurs, -, hmax⟩ | ⟨-, hall⟩
      · have hsame : q' = q := Nat.le_antisymm (hq.last q' hoccurs) (hmax q hq.occurs (h q hq))
        exact Or.inl ⟨q, hq, by rw [hnq, hsame]⟩
      · exact absurd (hall q hq.occurs) (h q hq)
    · have hnone : ∀ p, ¬ end_flag <+: content.drop p := fun p hp => hsome ⟨p, hp⟩
      rcases hfound with ⟨q', -, hoccurs, -, -⟩ | ⟨hzero, -⟩
      · exact absurd hoccurs (hnone q')
      · exact Or.inr ⟨hnone, hzero⟩

end File

/-- A file that begins with its only mark. -/
def markedFile (zeros : ℕ) : List UInt8 := 1 :: 2 :: List.replicate zeros 0

theorem length_markedFile (zeros : ℕ) : (markedFile zeros).length = zeros + 2 := by simp [markedFile]

theorem markedFile_marks {zeros p : ℕ} (h : [1, 2] <+: (markedFile zeros).drop p) : p = 0 := by
  have hone : (markedFile zeros)[p + 0]? = some 1 := prefix_drop_iff.mp h 0 (by decide)
  match p with
  | 0 => rfl
  | 1 =>
    have htwo : (markedFile zeros)[1 + 0]? = some 2 := rfl
    rw [htwo] at hone
    exact absurd hone (by decide)
  | p + 2 =>
    -- behind the mark there are only zeros
    have hzero : (markedFile zeros)[p + 2 + 0]? = (List.replicate zeros (0 : UInt8))[p]? := rfl
    rw [hzero, getElem?_replicate] at hone
    split at hone
    · exact absurd (some_inj.mp hone) (by decide)
    · exact absurd hone (by simp)

/-- A file of three blocks, with the mark in the one that is read last. -/
theorem q_repair_file_repairs_blocks : Repairs (markedFile 2097152) [1, 2] := by
  refine (q_repair_file_repairs_iff (markedFile 2097152) (by decide) (by decide)).mpr ?_
  intro p hp hcross
  have hpos := markedFile_marks hp.occurs
  obtain ⟨k, hbefore, hafter⟩ := hcross
  rw [length_markedFile, hpos] at hbefore hafter
  have hbefore : 0 < 2097152 + 2 - k * 1048576 := hbefore
  have hafter : 2097152 + 2 - k * 1048576 < 0 + 2 := hafter
  omega

/-- **A mark across a border** is not seen: a file of 1 MiB and a byte that
    begins with it is cut to nothing. -/
theorem q_repair_file_border : ¬ ∀ (content end_flag : List UInt8), end_flag ≠ [] →
    end_flag.length ≤ REPAIR_BLOCK → Repairs content end_flag := by
  intro h
  have hflag : ([1, 2] : List UInt8) ≠ [] := by decide
  have hlen : ([1, 2] : List UInt8).length ≤ REPAIR_BLOCK := by decide
  obtain ⟨zeros, hzeros⟩ : ∃ zeros, zeros + 1 = REPAIR_BLOCK := ⟨1048575, rfl⟩
  have hsize := length_markedFile zeros
  have hoccurs : [1, 2] <+: (markedFile zeros).drop 0 := ⟨List.replicate zeros 0, rfl⟩
  obtain ⟨n', hlength, hcall'⟩ := h (markedFile zeros) [1, 2] hflag hlen
  obtain ⟨n, hfound, hcall⟩ := q_repair_file_ok (markedFile zeros) hlen hflag
  rw [hcall, Option.some_inj] at hcall'
  have hn : n = n' := by injection hcall' with _ _ heq; exact Option.some_inj.mp heq
  rcases hfound with ⟨p, -, hp, hwithin, -⟩ | ⟨hzero, -⟩
  · apply hwithin
    have hp0 := markedFile_marks hp
    have hmark : ([1, 2] : List UInt8).length = 2 := rfl
    refine ⟨1, ?_, ?_⟩
    · rw [hp0, hsize]
      omega
    · rw [hp0, hsize, hmark]
      omega
  · rcases hlength with ⟨p, -, hp⟩ | ⟨hnone, -⟩
    · have hp : n' = p + 2 := hp
      omega
    · exact hnone 0 hoccurs

end KalavaPir.Common
